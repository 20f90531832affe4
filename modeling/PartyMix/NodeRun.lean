import PartyMix.BlockProcessing
import PartyMix.Lib.Transition

/-!
# Runs of a node

A node changes by connecting blocks and by disconnecting them.  An event carries
what the node is told and, for a block, the accumulator value it leaves.  A key
that is in the nullifier map stays there with its entry through every run.
-/

namespace PartyMix

open FirstWins FixedBytes MachineWord Transition

abbrev Block := UInt64 × List AggregateNullifier

inductive NodeEvent (V : Type) where
  | connected (block : Block) (nav : V)
  | disconnected (blocks : UInt32)

variable {A V M : Type} [DecidableEq V] {B : PcdBackend A V}

/-- A successful call of `process_block`. -/
def BlockStep (P : Primitives A V) (mgr : ToSAccM M V) (profile : Profile)
    (node : MixerNode B M) (block : Block) (next : MixerNode B M) : Prop :=
  processBlock P mgr profile node block.1 block.2 = .ok (.ok (), next)

/-- A successful call of `process_block` or `handle_reorg`. -/
def NodeStep (P : Primitives A V) (mgr : ToSAccM M V) (profile : Profile)
    (node : MixerNode B M) : NodeEvent V → MixerNode B M → Prop
  | .connected block nav, next =>
    BlockStep P mgr profile node block next ∧ currentNav mgr next = nav
  | .disconnected blocks, next => handleReorg mgr node blocks = (.ok (), next)

variable {P : Primitives A V} {mgr : ToSAccM M V} {profile : Profile}
  {node next : MixerNode B M}

theorem blockStep_cases {block : Block} (h : BlockStep P mgr profile node block next) :
    ∃ msg nullifierAccum, P.fromDigestSlice stateUpdateText = some msg ∧
      mgr.appendSet profile node.nullifierAccum
        (newElements P msg node.wallet.nullifierKv block.1 block.2) = .ok nullifierAccum ∧
      next = node.connect mgr block.1
        (newElements P msg node.wallet.nullifierKv block.1 block.2) nullifierAccum := by
  obtain ⟨msg, nullifierAccum, hmsg, -, happend, hresult⟩ := processBlock_eq_ok_iff.mp h
  obtain ⟨-, rfl⟩ := Prod.mk.inj hresult
  exact ⟨msg, nullifierAccum, hmsg, happend, rfl⟩

omit [DecidableEq V] in
theorem handleReorg_eq_ok_iff {blocks : UInt32} :
    handleReorg mgr node blocks = (.ok (), next) ↔
      blocks.toNat ≤ node.wallet.nullifierAccumHistory.length ∧
        next =
          { node with
            wallet := node.wallet.trimNullifierHistory
              (node.wallet.nullifierAccumHistory.length - blocks.toNat)
            nullifierAccum := mgr.removeSet^[blocks.toNat] node.nullifierAccum } := by
  unfold handleReorg
  split
  · next hdeep =>
    -- deeper than the recorded history: refused
    constructor
    · intro habs
      cases habs
    · rintro ⟨hshallow, -⟩
      omega
  · next hshallow =>
    simp only [Prod.mk.injEq, true_and]
    constructor
    · rintro rfl
      exact ⟨by omega, rfl⟩
    · rintro ⟨-, rfl⟩
      rfl

/-! ### The nullifier map only grows -/

theorem nullifierKv_blockStep {block : Block} (h : BlockStep P mgr profile node block next)
    {msg : Message} (hmsg : P.fromDigestSlice stateUpdateText = some msg) :
    next.wallet.nullifierKv = insertAll node.wallet.nullifierKv
      ((newElements P msg node.wallet.nullifierKv block.1 block.2).map kvEntry) := by
  obtain ⟨found, nullifierAccum, hfound, -, rfl⟩ := blockStep_cases h
  rw [hmsg, Option.some.injEq] at hfound
  subst hfound
  exact nullifierKv_connect _ _ _ _ _

/-- A block records each of its new elements. -/
theorem lookup_newElement {block : Block} (h : BlockStep P mgr profile node block next)
    {msg : Message} (hmsg : P.fromDigestSlice stateUpdateText = some msg)
    {element : ToSAccSetElement}
    (helement : element ∈ newElements P msg node.wallet.nullifierKv block.1 block.2) :
    next.wallet.nullifierKv.lookup element.1 = some (kvEntry element).2 := by
  rw [nullifierKv_blockStep h hmsg]
  exact lookup_of_mem_newElements helement

theorem lookup_blockStep {block : Block} (h : BlockStep P mgr profile node block next)
    {pk : PublicKey} {entry : NullifierKvEntry}
    (hentry : node.wallet.nullifierKv.lookup pk = some entry) :
    next.wallet.nullifierKv.lookup pk = some entry := by
  obtain ⟨msg, nullifierAccum, -, -, rfl⟩ := blockStep_cases h
  rw [nullifierKv_connect, lookup_of_mem_nullifierKv (Finmap.mem_of_lookup_eq_some hentry),
    hentry]

theorem lookup_run {start node : MixerNode B M} {blocks : List Block}
    (hrun : Run (BlockStep P mgr profile) start blocks node) {pk : PublicKey}
    {entry : NullifierKvEntry} (hentry : start.wallet.nullifierKv.lookup pk = some entry) :
    node.wallet.nullifierKv.lookup pk = some entry :=
  hrun.invariant (I := fun node => node.wallet.nullifierKv.lookup pk = some entry)
    (fun _ _ _ hlookup hstep => lookup_blockStep hstep hlookup) hentry

theorem lookup_nodeStep {event : NodeEvent V} (h : NodeStep P mgr profile node event next)
    {pk : PublicKey} {entry : NullifierKvEntry}
    (hentry : node.wallet.nullifierKv.lookup pk = some entry) :
    next.wallet.nullifierKv.lookup pk = some entry := by
  cases event with
  | connected block nav => exact lookup_blockStep h.1 hentry
  | disconnected blocks =>
    obtain ⟨-, rfl⟩ := handleReorg_eq_ok_iff.mp h
    rw [WalletState.nullifierKv_trimNullifierHistory, hentry]

/-! ### Accepted payments -/

theorem acceptPayment_eq_ok_iff {coin : Coin V} {coinProof : List UInt8}
    {acctIdBytes pkCommitRand : Bytes 32} {amount : UInt64} :
    acceptPayment P node coin coinProof acctIdBytes pkCommitRand = .ok amount ↔
      coin.essence.address = Commitment.commit P acctIdBytes pkCommitRand ∧
        coin.onChainId ∉ node.wallet.alreadyReceivedIds ∧ inHistory node coin = true ∧
        B.verify node.pcdVk (.coin coin) coinProof = .ok true ∧
        amount = coin.essence.amount := by
  unfold acceptPayment
  by_cases haddress : coin.essence.address = Commitment.commit P acctIdBytes pkCommitRand
  · by_cases hreceived : coin.onChainId ∈ node.wallet.alreadyReceivedIds
    · simp [haddress, hreceived]
    · cases hhistory : inHistory node coin with
      | false => simp [haddress, hreceived]
      | true =>
        cases hverify : B.verify node.pcdVk (.coin coin) coinProof with
        | error e => simp [haddress, hreceived]
        | ok verdict => cases verdict <;> simp [haddress, hreceived, @eq_comm _ amount]
  · simp [haddress]

theorem acceptPayment_of_not_inHistory {coin : Coin V} (h : inHistory node coin = false)
    (coinProof : List UInt8) (acctIdBytes pkCommitRand : Bytes 32) :
    acceptPayment P node coin coinProof acctIdBytes pkCommitRand = .error .paymentRejected := by
  unfold acceptPayment
  split
  · rfl
  · split
    · rfl
    · rw [h]
      rfl

end PartyMix
