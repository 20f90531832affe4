import PartyMix.DepositReplay

/-!
# How old a deposit has to be

The configuration names a number of confirmations for deposits, and no function
reads it: `accept_payment` asks for a recorded accumulator value, however young.  A
value the wallet started with needs no block at all.
-/

namespace PartyMix

open FixedBytes MachineWord Transition

variable {A V M : Type} [DecidableEq V] {B : PcdBackend A V} {P : Primitives A V}
  {mgr : ToSAccM M V} {profile : Profile} {node next : MixerNode B M}

/-! ### Runs of blocks with their values -/

/-- A block, and the accumulator value it leaves. -/
def ConnectStep (P : Primitives A V) (mgr : ToSAccM M V) (profile : Profile)
    (node : MixerNode B M) (label : Block × V) (next : MixerNode B M) : Prop :=
  NodeStep P mgr profile node (.connected label.1 label.2) next

def blockNavs (labels : List (Block × V)) : List V := labels.map Prod.snd

omit [DecidableEq V] in
theorem blockNavs_snoc (labels : List (Block × V)) (label : Block × V) :
    blockNavs (labels ++ [label]) = blockNavs labels ++ [label.2] := by
  simp [blockNavs]

theorem mem_history_connectStep {label : Block × V}
    (h : ConnectStep P mgr profile node label next) (nav : V) :
    nav ∈ next.wallet.nullifierAccumHistory ↔
      nav ∈ node.wallet.nullifierAccumHistory ∨ nav = label.2 := by
  rw [history_blockStep h]
  by_cases hlast : node.wallet.nullifierAccumHistory.getLast? = some label.2
  · have hmem := List.mem_of_getLast? hlast
    rw [if_pos hlast]
    constructor
    · exact Or.inl
    · rintro (hnav | rfl)
      · exact hnav
      · exact hmem
  · simp [hlast]

/-- A node knows the values it started with and those of its blocks. -/
theorem mem_history_run {start : MixerNode B M} {labels : List (Block × V)}
    (hrun : Run (ConnectStep P mgr profile) start labels node) (nav : V) :
    nav ∈ node.wallet.nullifierAccumHistory ↔
      nav ∈ start.wallet.nullifierAccumHistory ++ blockNavs labels := by
  induction hrun with
  | start => simp [blockNavs]
  | snoc _ hlast ih =>
    rw [mem_history_connectStep hlast, ih, blockNavs_snoc, ← List.append_assoc,
      List.mem_append (t := [_]), List.mem_singleton]

/-! ### Confirmed values -/

/-- A block has recorded the value, and with the blocks on top of it there are as many
    as the configuration asks for. -/
def Confirmed (config : MixerConfig) (labels : List (Block × V)) (nav : V) : Prop :=
  ∃ before after, blockNavs labels = before ++ nav :: after ∧
    config.depositConfirmations.toNat ≤ after.length + 1

omit [DecidableEq V] in
/-- The values of all blocks but the youngest are confirmed. -/
theorem confirmed_iff {config : MixerConfig} {labels : List (Block × V)} {nav : V} :
    Confirmed config labels nav ↔
      nav ∈ (blockNavs labels).take
        ((blockNavs labels).length + 1 - config.depositConfirmations.toNat) := by
  rw [List.mem_take_iff_getElem]
  constructor
  · rintro ⟨before, after, hnavs, hdepth⟩
    have hlength := congrArg List.length hnavs
    rw [List.length_append, List.length_cons] at hlength
    refine ⟨before.length, by omega, ?_⟩
    simp [hnavs]
  · rintro ⟨i, hi, rfl⟩
    have hlt : i < (blockNavs labels).length := by omega
    refine ⟨(blockNavs labels).take i, (blockNavs labels).drop (i + 1), ?_, ?_⟩
    · rw [← List.drop_eq_getElem_cons hlt, List.take_append_drop]
    · rw [List.length_drop]
      omega

/-- A deposit that is credited is confirmed, and one that is not confirmed is refused
    and changes nothing. -/
def WaitsForConfirmations (P : Primitives A V) (config : MixerConfig)
    (labels : List (Block × V)) (handler : DepositHandler) (node : MixerNode B M)
    (wallet : WalletState A V) (userIdHash : Bytes 32) (payload : DepositPayload V)
    (depositId : Uuid) : Prop :=
  (∀ receipt next, receiveDeposit P handler node wallet userIdHash payload depositId =
      (.ok receipt, next) → Confirmed config labels payload.coin.nullifierAccum) ∧
    (¬ Confirmed config labels payload.coin.nullifierAccum →
      ∃ error, receiveDeposit P handler node wallet userIdHash payload depositId =
        (.error error, wallet))

/-- The checks of `accept_payment` but the one of the accumulator value. -/
def PassesOtherChecks (P : Primitives A V) (handler : DepositHandler) (node : MixerNode B M)
    (payload : DepositPayload V) : Prop :=
  payload.coin.essence.address =
      Commitment.commit P handler.mixerAcctId handler.mixerAddressRand ∧
    payload.coin.onChainId ∉ node.wallet.alreadyReceivedIds ∧
    B.verify node.pcdVk (.coin payload.coin) payload.coinProof = .ok true

theorem acceptable_iff {handler : DepositHandler} {payload : DepositPayload V} :
    Acceptable P handler node payload ↔
      PassesOtherChecks P handler node payload ∧
        payload.coin.nullifierAccum ∈ node.wallet.nullifierAccumHistory := by
  simp only [Acceptable, PassesOtherChecks, acceptPayment_eq_ok_iff, inHistory, decide_eq_true_eq]
  constructor
  · rintro ⟨amount, haddress, hnew, hknown, hproof, -⟩
    exact ⟨⟨haddress, hnew, hproof⟩, hknown⟩
  · rintro ⟨⟨haddress, hnew, hproof⟩, hknown⟩
    exact ⟨_, haddress, hnew, hknown, hproof, rfl⟩

/-- A deposit waits for its confirmations when it is acceptable only if confirmed. -/
theorem waitsForConfirmations_iff_acceptable {config : MixerConfig} {labels : List (Block × V)}
    {handler : DepositHandler} {wallet : WalletState A V} {userIdHash : Bytes 32}
    {payload : DepositPayload V} {depositId : Uuid} :
    WaitsForConfirmations P config labels handler node wallet userIdHash payload depositId ↔
      (Acceptable P handler node payload →
        Confirmed config labels payload.coin.nullifierAccum) := by
  obtain ⟨⟨result, next⟩, hresult⟩ : ∃ outcome,
      receiveDeposit P handler node wallet userIdHash payload depositId = outcome := ⟨_, rfl⟩
  unfold WaitsForConfirmations
  rw [hresult]
  rcases receiveDeposit_cases hresult with ⟨haccept, rfl, -⟩ | ⟨hreject, rfl, rfl⟩
  · -- the deposit is credited, whatever the age of the value
    constructor
    · rintro ⟨hcredited, -⟩ -
      exact hcredited _ _ rfl
    · intro hconfirmed
      refine ⟨fun _ _ _ => hconfirmed haccept, ?_⟩
      intro hyoung
      exact absurd (hconfirmed haccept) hyoung
  · -- the deposit is refused, so it credits nothing early
    constructor
    · intro _ haccept
      exact absurd haccept hreject
    · intro _
      refine ⟨?_, fun _ => ⟨_, rfl⟩⟩
      intro receipt next habs
      cases habs

/-- **Confirmations.**  After every run of blocks from a new node, a deposit waits for
    the confirmations of a configuration exactly when its coin fails another check of
    the node, or is bound to a value the node does not know, or to one of a block that
    is not among the youngest: a coin bound to the value of the last block, or to one
    the wallet started with, is credited at once. -/
theorem deposit_waits_iff (P : Primitives A V) (mgr : ToSAccM M V) (profile : Profile)
    (config nodeConfig : MixerConfig) (nodeWallet : WalletState A V)
    (labels : List (Block × V)) (node : MixerNode B M)
    (hrun : Run (ConnectStep P mgr profile) (MixerNode.new mgr nodeConfig nodeWallet) labels node)
    (handler : DepositHandler) (wallet : WalletState A V) (userIdHash : Bytes 32)
    (payload : DepositPayload V) (depositId : Uuid) :
    WaitsForConfirmations P config labels handler node wallet userIdHash payload depositId ↔
      (PassesOtherChecks P handler node payload →
        payload.coin.nullifierAccum ∈ nodeWallet.nullifierAccumHistory ++ blockNavs labels →
          payload.coin.nullifierAccum ∈ (blockNavs labels).take
            ((blockNavs labels).length + 1 - config.depositConfirmations.toNat)) := by
  have hknown := mem_history_run hrun payload.coin.nullifierAccum
  rw [waitsForConfirmations_iff_acceptable, acceptable_iff, hknown, and_imp, confirmed_iff]
  rfl

/-- A payload with a coin of the only block. -/
def youngPayload : DepositPayload Nav := { samplePayload with coin := chainCoin sampleChain }

theorem youngPayload_acceptable :
    acceptPayment idealPrimitives connectedNode youngPayload.coin youngPayload.coinProof
      sampleHandler.mixerAcctId sampleHandler.mixerAddressRand = .ok 7 :=
  acceptPayment_eq_ok_iff.mpr ⟨rfl, by decide, by decide, by decide, rfl⟩

theorem connectedNode_run :
    Run (ConnectStep idealPrimitives .ideal .debug) sampleNode
      [((1, [sampleAggregate [sampleKey]]), sampleChain)] connectedNode :=
  Run.snoc Run.start connectedNode_step

/-- A coin of the last block is credited although six confirmations are asked for. -/
theorem young_deposit_credited : ∃ next,
    Run (ConnectStep idealPrimitives .ideal .debug) sampleNode
        [((1, [sampleAggregate [sampleKey]]), sampleChain)] connectedNode ∧
      MixerConfig.default.depositConfirmations = 6 ∧
      receiveDeposit idealPrimitives sampleHandler connectedNode (WalletState.new [])
        (beBytes 32 1) youngPayload Uuid.nil =
          (.ok ⟨Uuid.nil, 7, .pendingConsolidation⟩, next) ∧
      ¬ Confirmed MixerConfig.default [((1, [sampleAggregate [sampleKey]]), sampleChain)]
        youngPayload.coin.nullifierAccum := by
  refine ⟨_, connectedNode_run, rfl,
    receiveDeposit_of_accepted _ _ _ youngPayload_acceptable, ?_⟩
  rw [confirmed_iff]
  decide

/-- One confirmation is there when the block is. -/
theorem young_deposit_waits_once :
    WaitsForConfirmations idealPrimitives { MixerConfig.default with depositConfirmations := 1 }
      [((1, [sampleAggregate [sampleKey]]), sampleChain)] sampleHandler connectedNode
      (WalletState.new []) (beBytes 32 1) youngPayload Uuid.nil := by
  rw [deposit_waits_iff idealPrimitives .ideal .debug _ _ _ _ connectedNode connectedNode_run]
  intro _ _
  decide

end PartyMix
