import PartyMix.MixerNode
import PartyMix.PaymentAcceptance

/-!
# The publisher

`publisher.rs`: pending nullifiers are collected, aggregated, and verified again by
the nodes.  Aggregation, verification and `process_block` sign and check one fixed
message, which they build from a literal of 26 bytes; a message digest has 32.
-/

namespace PartyMix

open FixedBytes MachineWord

inductive PublisherError where
  | invalidFeeProof
  | aggregationFailed (message : String)
  | feeMismatch (expected actual : UInt64)
deriving DecidableEq

structure PendingNullifier (N : NisshacBackend) (V : Type) where
  nullifierPk : PublicKey
  signature : N.Signature
  feeOutput : PaymentInitOutputFee V
  feeProof : List UInt8

structure Publisher (N : NisshacBackend) (V : Type) where
  config : MixerConfig
  pending : List (PendingNullifier N V)
  feeAddress : Commitment

variable {A V M : Type} {N : NisshacBackend} {B : PcdBackend A V}

def Publisher.new (config : MixerConfig) (feeAddress : Commitment) : Publisher N V where
  config := config
  pending := []
  feeAddress := feeAddress

def submitNullifier (publisher : Publisher N V) (pending : PendingNullifier N V) :
    Except PublisherError Unit × Publisher N V :=
  if pending.feeOutput.fee < publisher.config.publisherFee then
    (.error (.feeMismatch publisher.config.publisherFee pending.feeOutput.fee), publisher)
  else
    (.ok (), { publisher with pending := publisher.pending ++ [pending] })

def NisshacError.text : NisshacError → String
  | .failed message => "NISSHAC error: " ++ message

def buildAggregateNullifier (P : Primitives A V) (publisher : Publisher N V) :
    Exec (Except PublisherError AggregateNullifier) :=
  if publisher.pending.isEmpty then
    .ok (.error (.aggregationFailed "no pending nullifiers"))
  else do
    let msg ← stateUpdateMessage P
    let sigs := publisher.pending.map fun p => (p.signature, p.nullifierPk, msg)
    match N.aggregate sigs with
    | .error e => .ok (.error (.aggregationFailed e.text))
    | .ok agg =>
      .ok (.ok
        { pks := publisher.pending.map PendingNullifier.nullifierPk
          sig := agg
          feeAcctComm := publisher.feeAddress })

def Publisher.clearPending (publisher : Publisher N V) : Publisher N V :=
  { publisher with pending := [] }

def Publisher.pendingCount (publisher : Publisher N V) : Nat := publisher.pending.length

def verifyAggregateNullifier (P : Primitives A V) (agg : AggregateNullifier) : Exec Bool := do
  let msg ← stateUpdateMessage P
  .ok (P.aggVerify agg.sig (agg.pks.map fun pk => (pk, msg)))

/-! ### The fixed message -/

/-- A digest is accepted exactly when it has 32 bytes. -/
def DigestLength (P : Primitives A V) : Prop :=
  ∀ data, (P.fromDigestSlice data).isSome ↔ data.length = 32

theorem fromDigestSlice_stateUpdateText {P : Primitives A V} (hdigest : DigestLength P) :
    P.fromDigestSlice stateUpdateText = none := by
  have hlength : stateUpdateText.length ≠ 32 := by decide
  rw [← Option.not_isSome_iff_eq_none, hdigest]
  exact hlength

theorem stateUpdateMessage_panics {P : Primitives A V} (hdigest : DigestLength P) :
    stateUpdateMessage P = .error (.expect "valid message length") := by
  rw [stateUpdateMessage, fromDigestSlice_stateUpdateText hdigest]
  rfl

/-- **The fixed message always panics.**  No call of `process_block`, no aggregation
    of pending nullifiers and no verification of an aggregate ever returns. -/
theorem stateUpdate_never_returns [DecidableEq V] (P : Primitives A V)
    (hdigest : DigestLength P) :
    (∀ (mgr : ToSAccM M V) (profile : Profile) (node : MixerNode B M) (blockHeight : UInt64)
        (aggregates : List AggregateNullifier),
      processBlock P mgr profile node blockHeight aggregates =
        .error (.expect "valid message")) ∧
    (∀ publisher : Publisher N V, publisher.pending ≠ [] →
      buildAggregateNullifier P publisher = .error (.expect "valid message length")) ∧
    ∀ agg : AggregateNullifier,
      verifyAggregateNullifier P agg = .error (.expect "valid message length") := by
  refine ⟨?_, ?_, ?_⟩
  · intro mgr profile node blockHeight aggregates
    rw [processBlock, fromDigestSlice_stateUpdateText hdigest]
    rfl
  · intro publisher hpending
    have hnonempty : publisher.pending.isEmpty = false := List.isEmpty_eq_false_iff.mpr hpending
    rw [buildAggregateNullifier, hnonempty, stateUpdateMessage_panics hdigest]
    rfl
  · intro agg
    rw [verifyAggregateNullifier, stateUpdateMessage_panics hdigest]
    rfl

/-- `Message::from_digest_slice` of secp256k1: 32 bytes or nothing. -/
def digestSlice (data : List UInt8) : Option Message :=
  if h : data.length = 32 then some ⟨⟨data, h⟩⟩ else none

def stubPrimitives : Primitives AccValue ToSAccValue :=
  sourcePrimitives rollingHash digestSlice fun _ => []

theorem stubPrimitives_digestLength : DigestLength stubPrimitives := by
  intro data
  change (digestSlice data).isSome ↔ data.length = 32
  unfold digestSlice
  split <;> simp [*]

def stubNode : MixerNode (mockPcd : PcdBackend AccValue ToSAccValue) ToSAccMState :=
  MixerNode.new (ToSAccM.source rollingHash) MixerConfig.default
    (WalletState.new (ToSAccM.source rollingHash).zero)

def samplePublisher : Publisher mockNisshac ToSAccValue where
  config := MixerConfig.default
  pending := [
    { nullifierPk := sampleKey
      signature := []
      feeOutput := ⟨⟨zeroBytes 32, sampleKey, ⟨zeroBytes 32⟩, ⟨zeroBytes 32⟩⟩, 500⟩
      feeProof := [] }]
  feeAddress := ⟨zeroBytes 32⟩

theorem stubNode_panics :
    processBlock stubPrimitives (ToSAccM.source rollingHash) .debug stubNode 1 [] =
        .error (.expect "valid message") ∧
      buildAggregateNullifier stubPrimitives samplePublisher =
        .error (.expect "valid message length") ∧
      verifyAggregateNullifier stubPrimitives ⟨[], ⟨[]⟩, ⟨zeroBytes 32⟩⟩ =
        .error (.expect "valid message length") :=
  ⟨rfl, rfl, rfl⟩

/-- The stubs satisfy the length contract, so a block with one aggregate does not
    get through and its publisher never builds one. -/
theorem stubNode_never_processes :
    processBlock stubPrimitives (ToSAccM.source rollingHash) .debug stubNode 1
        [⟨[sampleKey], ⟨[]⟩, ⟨zeroBytes 32⟩⟩] = .error (.expect "valid message") ∧
      buildAggregateNullifier stubPrimitives samplePublisher =
        .error (.expect "valid message length") := by
  obtain ⟨hblock, hbuild, -⟩ := stateUpdate_never_returns (M := ToSAccMState) (B := mockPcd)
    (N := mockNisshac) stubPrimitives stubPrimitives_digestLength
  exact ⟨hblock _ _ _ _ _, hbuild _ (List.cons_ne_nil _ _)⟩

end PartyMix
