import PartyMix.DoubleSpend

/-!
# Which accumulator values a node trusts after a reorg

`accept_payment` trusts the values in `nullifier_accum_history`.  A block appends
its value there; `handle_reorg(n)` computes how many values survive and then drains
that many from the front, so that the last `n` values are kept instead of removed.
The history is that of the surviving chain exactly while reorgs disconnect nothing.
-/

namespace PartyMix

open ChainPrefix FixedBytes MachineWord Transition

variable {A V M : Type} [DecidableEq V] {B : PcdBackend A V} {P : Primitives A V}
  {mgr : ToSAccM M V} {profile : Profile} {node next : MixerNode B M}

/-! ### The chain of a run -/

def chainAfter (chain : List V) : NodeEvent V → List V
  | .connected _ nav => chain ++ [nav]
  | .disconnected blocks => chain.take (chain.length - blocks.toNat)

/-- The values of the blocks that survive a run, on top of the values the wallet
    started with. -/
def survivingNavs (genesis : List V) (events : List (NodeEvent V)) : List V :=
  events.foldl chainAfter genesis

def connectedNavs (events : List (NodeEvent V)) : List V :=
  events.filterMap fun event => match event with
    | .connected _ nav => some nav
    | .disconnected _ => none

/-- No two blocks of the run have the same value. -/
def DistinctNavs (genesis : List V) (events : List (NodeEvent V)) : Prop :=
  (genesis ++ connectedNavs events).Nodup

omit [DecidableEq V] in
theorem survivingNavs_snoc (genesis : List V) (events : List (NodeEvent V))
    (event : NodeEvent V) :
    survivingNavs genesis (events ++ [event]) =
      chainAfter (survivingNavs genesis events) event := by
  simp [survivingNavs]

omit [DecidableEq V] in
theorem connectedNavs_connected (events : List (NodeEvent V)) (block : Block) (nav : V) :
    connectedNavs (events ++ [.connected block nav]) = connectedNavs events ++ [nav] := by
  simp [connectedNavs]

omit [DecidableEq V] in
theorem connectedNavs_disconnected (events : List (NodeEvent V)) (blocks : UInt32) :
    connectedNavs (events ++ [.disconnected blocks]) = connectedNavs events := by
  simp [connectedNavs]

omit [DecidableEq V] in
theorem DistinctNavs.init {genesis : List V} {events : List (NodeEvent V)}
    {event : NodeEvent V} (h : DistinctNavs genesis (events ++ [event])) :
    DistinctNavs genesis events := by
  unfold DistinctNavs at h ⊢
  cases event with
  | connected block nav =>
    rw [connectedNavs_connected, ← List.append_assoc] at h
    exact h.of_append_left
  | disconnected blocks =>
    rw [connectedNavs_disconnected] at h
    exact h

/-! ### One step -/

/-- A block records its value unless that is the last one recorded. -/
theorem history_blockStep {block : Block} {nav : V}
    (h : NodeStep P mgr profile node (.connected block nav) next) :
    next.wallet.nullifierAccumHistory =
      if node.wallet.nullifierAccumHistory.getLast? = some nav then
        node.wallet.nullifierAccumHistory
      else node.wallet.nullifierAccumHistory ++ [nav] := by
  obtain ⟨hblock, rfl⟩ := h
  obtain ⟨msg, nullifierAccum, -, -, rfl⟩ := blockStep_cases hblock
  exact WalletState.nullifierAccumHistory_recordNullifierAccum _ _

theorem history_connected {block : Block} {nav : V}
    (h : NodeStep P mgr profile node (.connected block nav) next)
    (hnew : nav ∉ node.wallet.nullifierAccumHistory) :
    next.wallet.nullifierAccumHistory = node.wallet.nullifierAccumHistory ++ [nav] := by
  have hlast : node.wallet.nullifierAccumHistory.getLast? ≠ some nav := by
    intro habs
    exact hnew (List.mem_of_getLast? habs)
  rw [history_blockStep h, if_neg hlast]

omit [DecidableEq V] in
/-- A reorg of one block or more keeps the values of the blocks it disconnects. -/
theorem history_disconnected {blocks : UInt32} (h : handleReorg mgr node blocks = (.ok (), next)) :
    next.wallet.nullifierAccumHistory =
      if blocks = 0 then node.wallet.nullifierAccumHistory
      else node.wallet.nullifierAccumHistory.drop
        (node.wallet.nullifierAccumHistory.length - blocks.toNat) := by
  obtain ⟨hshallow, rfl⟩ := handleReorg_eq_ok_iff.mp h
  unfold WalletState.trimNullifierHistory
  by_cases hblocks : blocks = 0
  · simp [hblocks]
  · have hpos := toNat_pos_of_ne_zero hblocks
    rw [if_neg hblocks, if_pos (by omega)]

omit [DecidableEq V] in
/-- **The trim.**  On a history without repetition a reorg removes the last values
    exactly when it disconnects nothing. -/
theorem handleReorg_trims_iff (hnodup : node.wallet.nullifierAccumHistory.Nodup)
    {blocks : UInt32} (h : handleReorg mgr node blocks = (.ok (), next)) :
    next.wallet.nullifierAccumHistory = node.wallet.nullifierAccumHistory.take
        (node.wallet.nullifierAccumHistory.length - blocks.toNat) ↔ blocks = 0 := by
  have hshallow := (handleReorg_eq_ok_iff.mp h).1
  rw [history_disconnected h]
  constructor
  · intro htrim
    by_contra hblocks
    have hpos := toNat_pos_of_ne_zero hblocks
    rw [if_neg hblocks] at htrim
    refine take_ne_drop hnodup hshallow hpos ?_ htrim.symm
    intro hnil
    rw [hnil] at hshallow
    exact absurd hshallow (Nat.not_le.mpr hpos)
  · rintro rfl
    simp

/-! ### Runs -/

/-- The history only ever holds values of connected blocks, each once. -/
theorem history_sublist {start : MixerNode B M} {events : List (NodeEvent V)}
    (hrun : Run (NodeStep P mgr profile) start events node)
    (hdistinct : DistinctNavs start.wallet.nullifierAccumHistory events) :
    node.wallet.nullifierAccumHistory.Sublist
      (start.wallet.nullifierAccumHistory ++ connectedNavs events) := by
  induction hrun with
  | start => simp [connectedNavs]
  | @snoc events node next event _ hlast ih =>
    have hsub := ih hdistinct.init
    cases event with
    | connected block nav =>
      unfold DistinctNavs at hdistinct
      rw [connectedNavs_connected, ← List.append_assoc] at hdistinct ⊢
      have hnew : nav ∉ node.wallet.nullifierAccumHistory := by
        intro habs
        rw [List.nodup_append] at hdistinct
        exact hdistinct.2.2 nav (hsub.subset habs) nav (List.mem_singleton_self nav) rfl
      rw [history_connected hlast hnew]
      exact hsub.append (List.Sublist.refl [nav])
    | disconnected blocks =>
      rw [connectedNavs_disconnected, history_disconnected hlast]
      split
      · exact hsub
      · exact (List.drop_sublist _ _).trans hsub

def DisconnectsNothing : NodeEvent V → Prop
  | .connected _ _ => True
  | .disconnected blocks => blocks = 0

/-- Without disconnections the history is the surviving chain. -/
theorem history_eq_survivingNavs {start : MixerNode B M} {events : List (NodeEvent V)}
    (hmeets : Meets (NodeStep P mgr profile) (fun _ _ event => DisconnectsNothing event) start
      events node)
    (hdistinct : DistinctNavs start.wallet.nullifierAccumHistory events) :
    node.wallet.nullifierAccumHistory =
      survivingNavs start.wallet.nullifierAccumHistory events := by
  induction hmeets with
  | start => rfl
  | @snoc events node next event hinit hgood hlast ih =>
    have hchain := ih hdistinct.init
    have hsub := history_sublist hinit.run hdistinct.init
    rw [survivingNavs_snoc, ← hchain]
    cases event with
    | connected block nav =>
      apply history_connected hlast
      intro habs
      unfold DistinctNavs at hdistinct
      rw [connectedNavs_connected, ← List.append_assoc, List.nodup_append] at hdistinct
      exact hdistinct.2.2 nav (hsub.subset habs) nav (List.mem_singleton_self nav) rfl
    | disconnected blocks =>
      have hnodup := hdistinct.init.sublist hsub
      exact (handleReorg_trims_iff hnodup hlast).mpr hgood

/-- **What a node trusts.**  In a run of blocks with distinct values, a reorg trims
    the history to its earlier content without the disconnected values exactly when
    it disconnects nothing; and while reorgs disconnect nothing, payments are
    checked against exactly the values of the surviving chain. -/
theorem node_trusts_survivingNavs (P : Primitives A V) (mgr : ToSAccM M V) (profile : Profile)
    (config : MixerConfig) (wallet : WalletState A V) (events : List (NodeEvent V))
    (node : MixerNode B M)
    (hrun : Run (NodeStep P mgr profile) (MixerNode.new mgr config wallet) events node)
    (hdistinct : DistinctNavs wallet.nullifierAccumHistory events) :
    (∀ blocks next, handleReorg mgr node blocks = (.ok (), next) →
      (next.wallet.nullifierAccumHistory = node.wallet.nullifierAccumHistory.take
        (node.wallet.nullifierAccumHistory.length - blocks.toNat) ↔ blocks = 0)) ∧
    (Meets (NodeStep P mgr profile) (fun _ _ event => DisconnectsNothing event)
        (MixerNode.new mgr config wallet) events node →
      node.wallet.nullifierAccumHistory =
          survivingNavs wallet.nullifierAccumHistory events ∧
        ∀ coin : Coin V,
          (coin.nullifierAccum ∉ survivingNavs wallet.nullifierAccumHistory events →
            ∀ coinProof acctIdBytes pkCommitRand,
              acceptPayment P node coin coinProof acctIdBytes pkCommitRand =
                .error .paymentRejected) ∧
          (coin.nullifierAccum ∈ survivingNavs wallet.nullifierAccumHistory events →
            inHistory node coin = true)) := by
  constructor
  · intro blocks next hreorg
    exact handleReorg_trims_iff (hdistinct.sublist (history_sublist hrun hdistinct)) hreorg
  · intro hmeets
    have hchain : node.wallet.nullifierAccumHistory =
        survivingNavs wallet.nullifierAccumHistory events :=
      history_eq_survivingNavs hmeets hdistinct
    refine ⟨hchain, ?_⟩
    intro coin
    constructor
    · intro hlost coinProof acctIdBytes pkCommitRand
      apply acceptPayment_of_not_inHistory
      rw [← hchain] at hlost
      simp [inHistory, hlost]
    · intro hkept
      rw [← hchain] at hkept
      simp [inHistory, hkept]

/-- A coin of 7 units on the given chain, paid to the address opened by zeros. -/
def chainCoin (nav : Nav) : Coin Nav where
  essence := ⟨Commitment.commit idealPrimitives (zeroBytes 32) (zeroBytes 32), 7, beBytes 2 1⟩
  txHash := zeroBytes 32
  blockchainLoc := zeroBytes 6
  nullifierAccum := nav

def connectedNode : MixerNode (mockPcd : PcdBackend (Finset CoinIdOnChain) Nav) Nav :=
  sampleNode.connect .ideal 1
    [(sampleKey, ⟨zeroBytes 32⟩, locationBytes (2 ^ 24), ⟨zeroBytes 32⟩)] sampleChain

theorem connectedNode_step :
    NodeStep idealPrimitives .ideal .debug sampleNode
      (.connected (1, [sampleAggregate [sampleKey]]) sampleChain) connectedNode :=
  ⟨rfl, rfl⟩

/-- After a block is connected and disconnected, the node accepts a coin of that
    block and rejects a coin of the genesis value. -/
theorem reorg_trusts_disconnected_block :
    ∃ node, Run (NodeStep idealPrimitives .ideal .debug) sampleNode
        [.connected (1, [sampleAggregate [sampleKey]]) sampleChain, .disconnected 1] node ∧
      DistinctNavs sampleNode.wallet.nullifierAccumHistory
        [.connected (1, [sampleAggregate [sampleKey]]) sampleChain, .disconnected 1] ∧
      survivingNavs sampleNode.wallet.nullifierAccumHistory
        [.connected (1, [sampleAggregate [sampleKey]]) sampleChain, .disconnected 1] = [[]] ∧
      acceptPayment idealPrimitives node (chainCoin sampleChain) mockPcdPrefix (zeroBytes 32)
        (zeroBytes 32) = .ok 7 ∧
      acceptPayment idealPrimitives node (chainCoin []) mockPcdPrefix (zeroBytes 32)
        (zeroBytes 32) = .error .paymentRejected := by
  refine ⟨(handleReorg .ideal connectedNode 1).2,
    Run.snoc (Run.snoc Run.start connectedNode_step) rfl, ?_, rfl, ?_, ?_⟩
  · unfold DistinctNavs
    decide
  · exact acceptPayment_eq_ok_iff.mpr ⟨rfl, by decide, by decide, by decide, rfl⟩
  · exact acceptPayment_of_not_inHistory (by decide) _ _ _

theorem sampleChain_trusted :
    ∃ node, Run (NodeStep idealPrimitives .ideal .debug) sampleNode
        [.connected (1, [sampleAggregate [sampleKey]]) sampleChain, .disconnected 0] node ∧
      inHistory node (chainCoin []) = true ∧ inHistory node (chainCoin sampleChain) = true := by
  obtain ⟨node, hreorg⟩ : ∃ node, NodeStep idealPrimitives .ideal .debug connectedNode
      (.disconnected 0) node := ⟨_, rfl⟩
  have hmeets : Meets (NodeStep idealPrimitives .ideal .debug)
      (fun _ _ event => DisconnectsNothing event) sampleNode
      [.connected (1, [sampleAggregate [sampleKey]]) sampleChain, .disconnected 0] node :=
    Meets.snoc (Meets.snoc Meets.start trivial connectedNode_step) rfl hreorg
  have hdistinct : DistinctNavs sampleNode.wallet.nullifierAccumHistory
      [.connected (1, [sampleAggregate [sampleKey]]) sampleChain, .disconnected 0] := by
    unfold DistinctNavs
    decide
  obtain ⟨-, htrusts⟩ := node_trusts_survivingNavs idealPrimitives .ideal .debug _ _ _ node
    hmeets.run hdistinct
  obtain ⟨-, hcoins⟩ := htrusts hmeets
  exact ⟨node, hmeets.run, (hcoins (chainCoin [])).2 (by decide),
    (hcoins (chainCoin sampleChain)).2 (by decide)⟩

end PartyMix
