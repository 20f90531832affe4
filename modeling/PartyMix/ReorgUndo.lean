import PartyMix.NodeRun
import PartyMix.PaymentAcceptance

/-!
# What a reorg does not undo

`append_set` hashes the accumulator value and counts the block; `remove_set` counts
back but keeps the value, and `handle_reorg` does not touch the chain height.  So
disconnecting blocks restores the depth, but the value only if the hash has come back
to it, and the height only if the last block has repeated it.
-/

namespace PartyMix

open FixedBytes MachineWord Transition

variable {A : Type} {B : PcdBackend A ToSAccValue} {P : Primitives A ToSAccValue}
  {hash : List UInt8 → Bytes 32} {profile : Profile} {node next : MixerNode B ToSAccMState}

/-! ### The accumulator of the source -/

/-- The value after a block, whatever the block contains. -/
def hashedNav (hash : List UInt8 → Bytes 32) (nav : ToSAccValue) : ToSAccValue :=
  ⟨hash nav.bytes.toList⟩

theorem iterate_removeSet_value (hash : List UInt8 → Bytes 32) (state : ToSAccMState) (n : Nat) :
    ((ToSAccM.source hash).removeSet^[n] state).value = state.value := by
  induction n with
  | zero => rfl
  | succ n ih =>
    rw [Function.iterate_succ_apply']
    exact ih

theorem iterate_removeSet_depth (hash : List UInt8 → Bytes 32) (state : ToSAccMState) (n : Nat) :
    ((ToSAccM.source hash).removeSet^[n] state).depth.toNat = state.depth.toNat - n := by
  induction n with
  | zero => rfl
  | succ n ih =>
    rw [Function.iterate_succ_apply']
    generalize (ToSAccM.source hash).removeSet^[n] state = removed at ih
    change (if removed.depth = 0 then 0 else removed.depth - 1).toNat = _
    by_cases hzero : removed.depth = 0
    · -- the depth stays at zero, as the truncated difference does
      rw [hzero] at ih
      rw [if_pos hzero]
      simp only [UInt32.toNat_zero] at ih ⊢
      omega
    · have hpos := toNat_pos_of_ne_zero hzero
      have hone : (1 : UInt32) ≤ removed.depth := UInt32.le_iff_toNat_le.mpr hpos
      rw [if_neg hzero, UInt32.toNat_sub_of_le _ _ hone, UInt32.toNat_one]
      omega

theorem blockStep_source {block : Block}
    (h : BlockStep P (.source hash) profile node block next) :
    next.nullifierAccum.value = hashedNav hash node.nullifierAccum.value ∧
      next.nullifierAccum.depth.toNat = (node.nullifierAccum.depth.toNat + 1) % 2 ^ 32 ∧
      next.chainHeight = block.1 := by
  obtain ⟨msg, nullifierAccum, -, happend, rfl⟩ := blockStep_cases h
  obtain ⟨depth, hdepth, hstate⟩ := bind_eq_ok.mp happend
  obtain ⟨rfl, -⟩ := plainOperator_eq_ok.mp hdepth
  obtain rfl := Except.ok.inj hstate
  exact ⟨rfl, UInt32.toNat_add _ _, rfl⟩

/-! ### Blocks and their removal -/

/-- The height after the blocks: that of the last one. -/
def heightAfter (chainHeight : UInt64) (blocks : List Block) : UInt64 :=
  (blocks.getLast?.map Prod.fst).getD chainHeight

theorem blocks_source {middle : MixerNode B ToSAccMState} {blocks : List Block}
    (hrun : Run (BlockStep P (.source hash) profile) node blocks middle) :
    middle.nullifierAccum.value = (hashedNav hash)^[blocks.length] node.nullifierAccum.value ∧
      middle.nullifierAccum.depth.toNat =
        (node.nullifierAccum.depth.toNat + blocks.length) % 2 ^ 32 ∧
      middle.chainHeight = heightAfter node.chainHeight blocks := by
  induction hrun with
  | start =>
    have hlt := node.nullifierAccum.depth.toNat_lt
    exact ⟨rfl, (Nat.mod_eq_of_lt hlt).symm, rfl⟩
  | snoc _ hlast ih =>
    obtain ⟨hvalue, hdepth, -⟩ := ih
    obtain ⟨hnextValue, hnextDepth, hnextHeight⟩ := blockStep_source hlast
    refine ⟨?_, ?_, ?_⟩
    · rw [hnextValue, hvalue, List.length_append, List.length_singleton,
        Function.iterate_succ_apply']
    · rw [hnextDepth, hdepth, List.length_append, List.length_singleton]
      omega
    · simp [hnextHeight, heightAfter]

/-- The value, the depth and the height are those before the blocks. -/
structure Restored (hash : List UInt8 → Bytes 32) (node next : MixerNode B ToSAccMState) :
    Prop where
  nav : currentNav (.source hash) next = currentNav (.source hash) node
  depth : next.nullifierAccum.depth = node.nullifierAccum.depth
  height : next.chainHeight = node.chainHeight

section Undo

variable {middle : MixerNode B ToSAccMState} {blocks : List Block} {n : UInt32}

/-- What connecting blocks and disconnecting as many leaves. -/
theorem reorg_source (hrun : Run (BlockStep P (.source hash) profile) node blocks middle)
    (hlength : blocks.length = n.toNat)
    (hreorg : handleReorg (.source hash) middle n = (.ok (), next)) :
    currentNav (.source hash) next =
        (hashedNav hash)^[n.toNat] (currentNav (.source hash) node) ∧
      next.nullifierAccum.depth.toNat =
        (node.nullifierAccum.depth.toNat + n.toNat) % 2 ^ 32 - n.toNat ∧
      next.chainHeight = heightAfter node.chainHeight blocks := by
  obtain ⟨hvalue, hdepth, hheight⟩ := blocks_source hrun
  obtain ⟨-, rfl⟩ := handleReorg_eq_ok_iff.mp hreorg
  have hkept := iterate_removeSet_value hash middle.nullifierAccum n.toNat
  have hcounted := iterate_removeSet_depth hash middle.nullifierAccum n.toNat
  rw [hvalue, hlength] at hkept
  rw [hdepth, hlength] at hcounted
  exact ⟨hkept, hcounted, hheight⟩

theorem restored_iff (hrun : Run (BlockStep P (.source hash) profile) node blocks middle)
    (hlength : blocks.length = n.toNat)
    (hreorg : handleReorg (.source hash) middle n = (.ok (), next)) :
    Restored hash node next ↔
      (hashedNav hash)^[n.toNat] (currentNav (.source hash) node) =
          currentNav (.source hash) node ∧
        node.nullifierAccum.depth.toNat + n.toNat < 2 ^ 32 ∧
        heightAfter node.chainHeight blocks = node.chainHeight := by
  obtain ⟨hnav, hdepth, hheight⟩ := reorg_source hrun hlength hreorg
  have hbefore := node.nullifierAccum.depth.toNat_lt
  have hn := n.toNat_lt
  constructor
  · rintro ⟨hsameNav, hsameDepth, hsameHeight⟩
    rw [hsameDepth] at hdepth
    refine ⟨hnav.symm.trans hsameNav, ?_, hheight.symm.trans hsameHeight⟩
    omega
  · rintro ⟨hback, hfits, hold⟩
    refine ⟨hnav.trans hback, UInt32.toNat_inj.mp ?_, hheight.trans hold⟩
    rw [hdepth, Nat.mod_eq_of_lt hfits]
    omega

end Undo

/-- **Undoing blocks.**  Connecting `n` blocks and disconnecting them restores the value
    exactly when hashing it `n` times gives it back, the depth when its counter has not
    wrapped, and the height when the last block has the old height.  So a hash that
    does not come back to the value restores the node for `n = 0` only. -/
theorem reorg_restores_iff (P : Primitives A ToSAccValue) (hash : List UInt8 → Bytes 32)
    (profile : Profile) (node middle next : MixerNode B ToSAccMState) (blocks : List Block)
    (n : UInt32) (hrun : Run (BlockStep P (.source hash) profile) node blocks middle)
    (hlength : blocks.length = n.toNat)
    (hreorg : handleReorg (.source hash) middle n = (.ok (), next)) :
    (Restored hash node next ↔
      (hashedNav hash)^[n.toNat] (currentNav (.source hash) node) =
          currentNav (.source hash) node ∧
        node.nullifierAccum.depth.toNat + n.toNat < 2 ^ 32 ∧
        heightAfter node.chainHeight blocks = node.chainHeight) ∧
    ((∀ k, 0 < k → k ≤ n.toNat → (hashedNav hash)^[k] (currentNav (.source hash) node) ≠
        currentNav (.source hash) node) →
      (Restored hash node next ↔ n = 0)) := by
  have hrestored := restored_iff hrun hlength hreorg
  refine ⟨hrestored, ?_⟩
  intro hacyclic
  constructor
  · intro hback
    by_contra hpos
    exact hacyclic n.toNat (toNat_pos_of_ne_zero hpos) (Nat.le_refl _) (hrestored.mp hback).1
  · rintro rfl
    have hbefore := node.nullifierAccum.depth.toNat_lt
    obtain rfl : blocks = [] := List.length_eq_zero_iff.mp hlength
    exact hrestored.mpr ⟨rfl, hbefore, rfl⟩

/-- A hash that counts. -/
def countingHash (data : List UInt8) : Bytes 32 :=
  beBytes 32 (data.foldl (fun acc byte => acc * 256 + byte.toNat) 0 + 1)

def countingPrimitives : Primitives AccValue ToSAccValue :=
  sourcePrimitives countingHash (fun _ => some ⟨zeroBytes 32⟩) (fun _ => [])

def countingNode : MixerNode (mockPcd : PcdBackend AccValue ToSAccValue) ToSAccMState :=
  MixerNode.new (.source countingHash) MixerConfig.default (WalletState.new ⟨zeroBytes 32⟩)

/-- The node after its only block, at height 1 and empty. -/
def countingConnected : MixerNode (mockPcd : PcdBackend AccValue ToSAccValue) ToSAccMState :=
  countingNode.connect (.source countingHash) 1 [] ⟨⟨beBytes 32 1⟩, 1⟩

theorem countingConnected_run :
    Run (BlockStep countingPrimitives (.source countingHash) .debug) countingNode [(1, [])]
      countingConnected :=
  Run.snoc Run.start rfl

/-- A new node whose only block is disconnected keeps the value and the height of the
    block. -/
theorem disconnected_block_not_undone : ∃ next,
    Run (BlockStep countingPrimitives (.source countingHash) .debug) countingNode [(1, [])]
        countingConnected ∧
      handleReorg (.source countingHash) countingConnected 1 = (.ok (), next) ∧
      currentNav (.source countingHash) countingNode = ⟨zeroBytes 32⟩ ∧
      currentNav (.source countingHash) next = ⟨beBytes 32 1⟩ ∧
      countingNode.chainHeight = 0 ∧ next.chainHeight = 1 ∧
      ¬ Restored countingHash countingNode next := by
  refine ⟨_, countingConnected_run, rfl, rfl, rfl, rfl, rfl, ?_⟩
  rintro ⟨hnav, -, -⟩
  exact absurd hnav (by decide)

/-- A value that is not hashed to itself is not restored by disconnecting its block. -/
theorem countingNode_restored_iff : ∃ next,
    handleReorg (.source countingHash) countingConnected 1 = (.ok (), next) ∧
      (Restored countingHash countingNode next ↔ (1 : UInt32) = 0) := by
  have hreorg : handleReorg (.source countingHash) countingConnected 1 =
      (.ok (), (handleReorg (.source countingHash) countingConnected 1).2) := rfl
  refine ⟨_, hreorg, ?_⟩
  apply (reorg_restores_iff countingPrimitives countingHash .debug countingNode countingConnected
    _ [(1, [])] 1 countingConnected_run rfl hreorg).2
  intro k hpos hle
  obtain rfl : k = 1 := Nat.le_antisymm hle hpos
  decide

end PartyMix
