import PartyMix.ReorgHistory

/-!
# How deep a reorg may go

`handle_reorg` refuses more blocks than the history has values.  The history starts
with a value that no block has recorded, skips a value that repeats the last one,
and after a reorg holds as many values as blocks were disconnected.  `Tip` follows
its last value and its length through the events of a run, so that the guard can be
compared with the blocks that are really there.
-/

namespace PartyMix

open FixedBytes MachineWord Transition

variable {A V M : Type} [DecidableEq V] {B : PcdBackend A V} {P : Primitives A V}
  {mgr : ToSAccM M V} {profile : Profile} {node next : MixerNode B M}

/-! ### The depth of the chain and the length of the history -/

/-- The blocks an event adds to the chain, or removes from it. -/
def depthChange : NodeEvent V → Int
  | .connected _ _ => 1
  | .disconnected blocks => -blocks.toNat

/-- The blocks processed, less the blocks removed. -/
def chainDepth (events : List (NodeEvent V)) : Int := (events.map depthChange).sum

structure Tip (V : Type) where
  last : Option V
  length : Nat

def Tip.after (tip : Tip V) : NodeEvent V → Tip V
  | .connected _ nav => if tip.last = some nav then tip else ⟨some nav, tip.length + 1⟩
  | .disconnected blocks => if blocks = 0 then tip else ⟨tip.last, blocks.toNat⟩

def tipOf (history : List V) : Tip V := ⟨history.getLast?, history.length⟩

def tipAfter (genesis : List V) (events : List (NodeEvent V)) : Tip V :=
  events.foldl Tip.after (tipOf genesis)

theorem tipAfter_snoc (genesis : List V) (events : List (NodeEvent V)) (event : NodeEvent V) :
    tipAfter genesis (events ++ [event]) = (tipAfter genesis events).after event := by
  simp [tipAfter]

/-- A step changes the last value and the length of the history as the event says. -/
theorem tip_nodeStep {event : NodeEvent V} (h : NodeStep P mgr profile node event next) :
    tipOf next.wallet.nullifierAccumHistory =
      (tipOf node.wallet.nullifierAccumHistory).after event := by
  cases event with
  | connected block nav =>
    rw [history_blockStep h]
    by_cases hlast : node.wallet.nullifierAccumHistory.getLast? = some nav
    · simp [tipOf, Tip.after, hlast]
    · simp [tipOf, Tip.after, hlast]
  | disconnected blocks =>
    have hshallow := (handleReorg_eq_ok_iff.mp h).1
    rw [history_disconnected h]
    by_cases hblocks : blocks = 0
    · simp [tipOf, Tip.after, hblocks]
    · have hpos := toNat_pos_of_ne_zero hblocks
      have hkept : ¬ node.wallet.nullifierAccumHistory.length ≤
          node.wallet.nullifierAccumHistory.length - blocks.toNat := by omega
      simp only [tipOf, Tip.after, if_neg hblocks, List.getLast?_drop, if_neg hkept,
        List.length_drop]
      congr 1
      omega

theorem tip_run {config : MixerConfig} {wallet : WalletState A V} {events : List (NodeEvent V)}
    (hrun : Run (NodeStep P mgr profile) (MixerNode.new mgr config wallet) events node) :
    tipOf node.wallet.nullifierAccumHistory = tipAfter wallet.nullifierAccumHistory events := by
  induction hrun with
  | start => rfl
  | snoc _ hlast ih => rw [tip_nodeStep hlast, ih, tipAfter_snoc]

/-! ### The guard -/

omit [DecidableEq V] in
theorem handleReorg_refused_iff {blocks : UInt32} :
    (handleReorg mgr node blocks).1 = .error .reorgTooDeep ↔
      node.wallet.nullifierAccumHistory.length < blocks.toNat := by
  unfold handleReorg
  by_cases hdeep : blocks.toNat > node.wallet.nullifierAccumHistory.length
  · simp [hdeep]
  · simp [hdeep]

omit [DecidableEq V] in
/-- A refused reorg leaves the node alone. -/
theorem handleReorg_refused {blocks : UInt32} {error : NodeError}
    (h : handleReorg mgr node blocks = (.error error, next)) :
    error = .reorgTooDeep ∧ next = node := by
  unfold handleReorg at h
  split at h
  · obtain ⟨herror, rfl⟩ := Prod.mk.inj h
    exact ⟨(Except.error.inj herror).symm, rfl⟩
  · cases h

/-- The largest number of blocks a call can name. -/
def maxBlocks : Nat := 2 ^ 32 - 1

/-- A guard at one bound refuses what a guard at another does when the bounds agree on
    the numbers a call can name. -/
theorem guards_agree_iff (depth : Int) (length : Nat) :
    (∀ blocks : UInt32, length < blocks.toNat ↔ depth < blocks.toNat) ↔
      min depth maxBlocks = min length maxBlocks := by
  unfold maxBlocks
  constructor
  · intro hagree
    by_contra hne
    by_cases hshort : (length : Int) < depth
    · -- the first number above the history
      have hblocks : (UInt32.ofNat (length + 1)).toNat = length + 1 :=
        UInt32.toNat_ofNat_of_lt' (by simp only [UInt32.size]; omega)
      have hagree := hagree (UInt32.ofNat (length + 1))
      omega
    · -- the first number above the depth, or none at all
      have hblocks : (UInt32.ofNat (depth + 1).toNat).toNat = (depth + 1).toNat :=
        UInt32.toNat_ofNat_of_lt' (by simp only [UInt32.size]; omega)
      have hagree := hagree (UInt32.ofNat (depth + 1).toNat)
      omega
  · intro hsame blocks
    have hlt := blocks.toNat_lt
    omega

/-- **The guard.**  At the end of every run a call is refused as the depth of the chain
    asks exactly when it is on the same side of the depth and of the length the run
    has given the history; so all calls are exactly when the two are equal, as far as
    a call can tell.  A refused call changes nothing. -/
theorem reorg_refused_at_depth_iff (P : Primitives A V) (mgr : ToSAccM M V) (profile : Profile)
    (config : MixerConfig) (wallet : WalletState A V) (events : List (NodeEvent V))
    (node : MixerNode B M)
    (hrun : Run (NodeStep P mgr profile) (MixerNode.new mgr config wallet) events node) :
    (∀ blocks : UInt32,
        (((handleReorg mgr node blocks).1 = .error .reorgTooDeep ↔
            chainDepth events < blocks.toNat) ↔
          (chainDepth events < blocks.toNat ↔
            (tipAfter wallet.nullifierAccumHistory events).length < blocks.toNat))) ∧
      ((∀ blocks : UInt32, (handleReorg mgr node blocks).1 = .error .reorgTooDeep ↔
          chainDepth events < blocks.toNat) ↔
        min (chainDepth events) maxBlocks =
          min (tipAfter wallet.nullifierAccumHistory events).length maxBlocks) ∧
      ∀ blocks error next, handleReorg mgr node blocks = (.error error, next) →
        error = .reorgTooDeep ∧ next = node := by
  have htip := congrArg Tip.length (tip_run hrun)
  have hguard : ∀ blocks : UInt32, (handleReorg mgr node blocks).1 = .error .reorgTooDeep ↔
      (tipAfter wallet.nullifierAccumHistory events).length < blocks.toNat := by
    intro blocks
    rw [handleReorg_refused_iff, ← htip]
    rfl
  refine ⟨?_, ?_, ?_⟩
  · intro blocks
    rw [hguard]
    exact ⟨Iff.symm, Iff.symm⟩
  · simp only [hguard]
    exact guards_agree_iff _ _
  · intro blocks error next h
    exact handleReorg_refused h

/-- A node that has processed no block lets one block be disconnected. -/
theorem new_node_disconnects_block :
    Run (NodeStep idealPrimitives .ideal .debug) sampleNode [] sampleNode ∧
      chainDepth ([] : List (NodeEvent Nav)) < (1 : UInt32).toNat ∧
      (handleReorg .ideal sampleNode 1).1 = .ok () ∧
      ¬ ((handleReorg .ideal sampleNode 1).1 = .error .reorgTooDeep ↔
        chainDepth ([] : List (NodeEvent Nav)) < (1 : UInt32).toNat) := by
  have hdepth : chainDepth ([] : List (NodeEvent Nav)) < (1 : UInt32).toNat := by decide
  refine ⟨Run.start, hdepth, rfl, ?_⟩
  intro hrefused
  cases hrefused.mpr hdepth

/-- After its first block a node lets two blocks be disconnected, and not three. -/
theorem connectedNode_guard :
    Run (NodeStep idealPrimitives .ideal .debug) sampleNode
        [.connected (1, [sampleAggregate [sampleKey]]) sampleChain] connectedNode ∧
      ((handleReorg .ideal connectedNode 1).1 = .error .reorgTooDeep ↔
        chainDepth [.connected (1, [sampleAggregate [sampleKey]]) sampleChain] <
          (1 : UInt32).toNat) ∧
      ¬ ((handleReorg .ideal connectedNode 2).1 = .error .reorgTooDeep ↔
        chainDepth [.connected (1, [sampleAggregate [sampleKey]]) sampleChain] <
          (2 : UInt32).toNat) := by
  have hrun : Run (NodeStep idealPrimitives .ideal .debug) sampleNode
      [.connected (1, [sampleAggregate [sampleKey]]) sampleChain] connectedNode :=
    Run.snoc Run.start connectedNode_step
  obtain ⟨hcalls, -, -⟩ := reorg_refused_at_depth_iff idealPrimitives .ideal .debug _ _ _ _ hrun
  refine ⟨hrun, (hcalls 1).mpr (by decide), ?_⟩
  rw [hcalls 2]
  decide

end PartyMix
