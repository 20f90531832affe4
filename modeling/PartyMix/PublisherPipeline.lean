import PartyMix.BlockRecord
import PartyMix.Publisher

/-!
# From a submission to the fee coin

A submitted nullifier travels through three lists, the pending ones, the aggregated
signatures and the published keys, and then through the scan of a block, which skips
repeated keys.  The positions line up, so a key is recorded with the commitment of
the first signature submitted for it.  The fee is paid for the key of the fee output,
which nothing ties to the submitted key.
-/

namespace PartyMix

open ChainPrefix FirstWins FixedBytes MachineWord Transition

variable {A V M : Type} {B : PcdBackend A V} {N : NisshacBackend} {P : Primitives A V}
  {mgr : ToSAccM M V} {profile : Profile}

/-! ### Submissions -/

/-- A call of `submit_nullifier` with its result. -/
def SubmitStep (publisher : Publisher N V)
    (call : PendingNullifier N V × Except PublisherError Unit) (next : Publisher N V) : Prop :=
  submitNullifier publisher call.1 = (call.2, next)

def acceptedSubmissions (calls : List (PendingNullifier N V × Except PublisherError Unit)) :
    List (PendingNullifier N V) :=
  calls.filterMap fun call =>
    match call.2 with
    | .ok () => some call.1
    | .error _ => none

theorem submitNullifier_cases {publisher next : Publisher N V} {pending : PendingNullifier N V}
    {result : Except PublisherError Unit}
    (h : submitNullifier publisher pending = (result, next)) :
    (result = .ok () ∧ publisher.config.publisherFee ≤ pending.feeOutput.fee ∧
        next = { publisher with pending := publisher.pending ++ [pending] }) ∨
      ((∃ error, result = .error error) ∧ next = publisher) := by
  unfold submitNullifier at h
  split at h
  · obtain ⟨rfl, rfl⟩ := Prod.mk.inj h
    exact Or.inr ⟨⟨_, rfl⟩, rfl⟩
  next hfee =>
  obtain ⟨rfl, rfl⟩ := Prod.mk.inj h
  exact Or.inl ⟨rfl, UInt64.not_lt.mp hfee, rfl⟩

/-- What a run of submissions leaves: the accepted ones, each with a sufficient fee. -/
structure Collected (config : MixerConfig) (feeAddress : Commitment)
    (calls : List (PendingNullifier N V × Except PublisherError Unit))
    (publisher : Publisher N V) : Prop where
  config_eq : publisher.config = config
  feeAddress_eq : publisher.feeAddress = feeAddress
  pending_eq : publisher.pending = acceptedSubmissions calls
  fees : ∀ pending ∈ acceptedSubmissions calls, config.publisherFee ≤ pending.feeOutput.fee

theorem collected_step {config : MixerConfig} {feeAddress : Commitment}
    {calls : List (PendingNullifier N V × Except PublisherError Unit)}
    {call : PendingNullifier N V × Except PublisherError Unit} {publisher next : Publisher N V}
    (hcollected : Collected config feeAddress calls publisher)
    (hstep : SubmitStep publisher call next) :
    Collected config feeAddress (calls ++ [call]) next := by
  obtain ⟨pending, result⟩ := call
  rcases submitNullifier_cases hstep with ⟨rfl, hfee, rfl⟩ | ⟨⟨error, rfl⟩, rfl⟩
  · have hsnoc : acceptedSubmissions (calls ++ [(pending, .ok ())]) =
        acceptedSubmissions calls ++ [pending] := by simp [acceptedSubmissions]
    refine ⟨hcollected.config_eq, hcollected.feeAddress_eq, ?_, ?_⟩
    · rw [hsnoc, ← hcollected.pending_eq]
    · intro other hother
      rw [hsnoc, List.mem_append, List.mem_singleton] at hother
      rcases hother with hold | rfl
      · exact hcollected.fees other hold
      · rw [← hcollected.config_eq]
        exact hfee
  · have hsnoc : acceptedSubmissions (calls ++ [(pending, .error error)]) =
        acceptedSubmissions calls := by simp [acceptedSubmissions]
    refine ⟨hcollected.config_eq, hcollected.feeAddress_eq, ?_, ?_⟩
    · rw [hsnoc, hcollected.pending_eq]
    · rw [hsnoc]
      exact hcollected.fees

theorem collected_run {config : MixerConfig} {feeAddress : Commitment}
    {calls : List (PendingNullifier N V × Except PublisherError Unit)}
    {publisher : Publisher N V}
    (hrun : Run SubmitStep (Publisher.new config feeAddress) calls publisher) :
    Collected config feeAddress calls publisher := by
  induction hrun with
  | start =>
    refine ⟨rfl, rfl, rfl, ?_⟩
    intro pending hpending
    cases hpending
  | snoc _ hlast ih => exact collected_step ih hlast

/-! ### Aggregation -/

/-- What the pipeline assumes of NISSHAC: an aggregate verifies for the keys and
    messages it was built from, and its commitments are those of the signatures, in
    their positions. -/
structure AggregationSound (P : Primitives A V) (N : NisshacBackend)
    (commitmentOf : N.Signature → SigCommitment) : Prop where
  verifies : ∀ sigs agg, N.aggregate sigs = .ok agg →
    P.aggVerify agg (sigs.map fun entry => (entry.2.1, entry.2.2)) = true
  retrieves : ∀ sigs agg, N.aggregate sigs = .ok agg → ∀ i entry, sigs[i]? = some entry →
    P.commitRetrieve agg i = commitmentOf entry.1

theorem buildAggregateNullifier_eq_ok_iff {publisher : Publisher N V} {agg : AggregateNullifier} :
    buildAggregateNullifier P publisher = .ok (.ok agg) ↔
      publisher.pending ≠ [] ∧ ∃ msg sig, P.fromDigestSlice stateUpdateText = some msg ∧
        N.aggregate (publisher.pending.map fun p => (p.signature, p.nullifierPk, msg)) = .ok sig ∧
        agg = ⟨publisher.pending.map PendingNullifier.nullifierPk, sig, publisher.feeAddress⟩ := by
  unfold buildAggregateNullifier
  cases hpending : publisher.pending with
  | nil => simp
  | cons first rest =>
    simp only [List.isEmpty_cons, Bool.false_eq_true, if_false, stateUpdateMessage, bind_eq_ok,
      expect_eq_ok, ne_eq, reduceCtorEq, not_false_eq_true, true_and]
    constructor
    · rintro ⟨msg, hmsg, h⟩
      split at h
      · cases h
      next sig hsig =>
      simp only [Except.ok.injEq] at h
      exact ⟨msg, sig, hmsg, hsig, h.symm⟩
    · rintro ⟨msg, sig, hmsg, hsig, rfl⟩
      exact ⟨msg, hmsg, by rw [hsig]⟩

/-- The built aggregate verifies, and at the position of a submission it holds the
    submitted key with the commitment of the submitted signature. -/
theorem buildAggregateNullifier_positions {commitmentOf : N.Signature → SigCommitment}
    (hsound : AggregationSound P N commitmentOf) {publisher : Publisher N V}
    {agg : AggregateNullifier} (hbuild : buildAggregateNullifier P publisher = .ok (.ok agg))
    {msg : Message} (hmsg : P.fromDigestSlice stateUpdateText = some msg) :
    agg.pks = publisher.pending.map PendingNullifier.nullifierPk ∧
      agg.feeAcctComm = publisher.feeAddress ∧ aggregateVerifies P msg agg = true ∧
      ∀ i pending, publisher.pending[i]? = some pending →
        P.commitRetrieve agg.sig i = commitmentOf pending.signature := by
  obtain ⟨-, built, sig, hbuilt, hsig, rfl⟩ := buildAggregateNullifier_eq_ok_iff.mp hbuild
  rw [hmsg, Option.some.injEq] at hbuilt
  subst hbuilt
  refine ⟨rfl, rfl, ?_, ?_⟩
  · have hverifies := hsound.verifies _ _ hsig
    rw [List.map_map] at hverifies
    unfold aggregateVerifies
    rw [List.map_map]
    exact hverifies
  · intro i pending hi
    apply hsound.retrieves _ _ hsig i (pending.signature, pending.nullifierPk, msg)
    rw [List.getElem?_map, hi]
    rfl

/-! ### The scan -/

/-- What a block publishes that has the aggregate of the submissions between the
    aggregates `before` and `after`. -/
def publications (P : Primitives A V) (msg : Message) (commitmentOf : N.Signature → SigCommitment)
    (feeAddress : Commitment) (before : List AggregateNullifier)
    (submissions : List (PendingNullifier N V)) (after : List AggregateNullifier) :
    List (PublicKey × SigCommitment × Commitment) :=
  occurrences P msg before ++
    submissions.map (fun pending =>
      (pending.nullifierPk, commitmentOf pending.signature, feeAddress)) ++
    occurrences P msg after

theorem occurrences_eq_publications {commitmentOf : N.Signature → SigCommitment}
    (hsound : AggregationSound P N commitmentOf) {publisher : Publisher N V}
    {agg : AggregateNullifier} (hbuild : buildAggregateNullifier P publisher = .ok (.ok agg))
    {msg : Message} (hmsg : P.fromDigestSlice stateUpdateText = some msg)
    (before after : List AggregateNullifier) :
    occurrences P msg (before ++ agg :: after) =
      publications P msg commitmentOf publisher.feeAddress before publisher.pending after := by
  obtain ⟨hpks, hfee, hverifies, hretrieves⟩ := buildAggregateNullifier_positions hsound hbuild hmsg
  have hoccurrences : agg.pks.zipIdx.map (keyOccurrence P agg) = publisher.pending.map
      fun pending => (pending.nullifierPk, commitmentOf pending.signature,
        publisher.feeAddress) := by
    apply List.ext_getElem?
    intro i
    rw [hpks, List.getElem?_map, List.getElem?_zipIdx, List.getElem?_map, List.getElem?_map]
    cases hi : publisher.pending[i]? with
    | none => rfl
    | some pending =>
      simp only [Option.map_some, Nat.zero_add, keyOccurrence, hretrieves i pending hi, hfee]
  rw [occurrences_append, occurrences_cons hverifies, hoccurrences, publications,
    List.append_assoc]

/-- A submitted key that no earlier aggregate publishes has the commitment of its first
    submission. -/
theorem lookup_publications {commitmentOf : N.Signature → SigCommitment}
    {feeAddress : Commitment} {msg : Message} {before after : List AggregateNullifier}
    {earlier later : List (PendingNullifier N V)} {first : PendingNullifier N V}
    (hfirst : ∀ other ∈ earlier, other.nullifierPk ≠ first.nullifierPk)
    (hbefore : first.nullifierPk ∉ publishedKeys P msg before) :
    (publications P msg commitmentOf feeAddress before (earlier ++ first :: later) after).lookup
      first.nullifierPk = some (commitmentOf first.signature, feeAddress) := by
  rw [List.lookup_eq_some_iff]
  refine ⟨occurrences P msg before ++ earlier.map (fun pending =>
      (pending.nullifierPk, commitmentOf pending.signature, feeAddress)),
    later.map (fun pending =>
      (pending.nullifierPk, commitmentOf pending.signature, feeAddress)) ++
      occurrences P msg after, ?_, ?_⟩
  · simp [publications]
  · intro occurrence hoccurrence
    rw [bne_iff_ne]
    rcases List.mem_append.mp hoccurrence with hpublished | hsubmitted
    · rintro heq
      apply hbefore
      rw [heq, ← map_fst_occurrences]
      exact List.mem_map_of_mem hpublished
    · obtain ⟨other, hother, rfl⟩ := List.mem_map.mp hsubmitted
      exact (hfirst other hother).symm

/-- The first submission of a key that is new is recorded. -/
theorem first_submission_recorded {commitmentOf : N.Signature → SigCommitment}
    (hsound : AggregationSound P N commitmentOf) {publisher : Publisher N V}
    {agg : AggregateNullifier} (hbuild : buildAggregateNullifier P publisher = .ok (.ok agg))
    {msg : Message} (hmsg : P.fromDigestSlice stateUpdateText = some msg)
    (nullifierKv : HashMap PublicKey NullifierKvEntry) (blockHeight : UInt64)
    (before after : List AggregateNullifier) {earlier later : List (PendingNullifier N V)}
    {first : PendingNullifier N V} (hpending : publisher.pending = earlier ++ first :: later)
    (hfirst : ∀ other ∈ earlier, other.nullifierPk ≠ first.nullifierPk)
    (hnew : first.nullifierPk ∉ nullifierKv)
    (hbefore : first.nullifierPk ∉ publishedKeys P msg before) :
    (first.nullifierPk, commitmentOf first.signature,
        recordedLoc nullifierKv blockHeight (publications P msg commitmentOf publisher.feeAddress
          before publisher.pending after) first.nullifierPk, publisher.feeAddress) ∈
      newElements P msg nullifierKv blockHeight (before ++ agg :: after) := by
  rw [mem_newElements_iff_lookup, occurrences_eq_publications hsound hbuild hmsg]
  refine ⟨hnew, ?_, rfl⟩
  rw [hpending]
  exact lookup_publications hfirst hbefore

/-- A key of the list has a first submission. -/
theorem exists_first_submission {submissions : List (PendingNullifier N V)} {pk : PublicKey}
    (h : pk ∈ submissions.map PendingNullifier.nullifierPk) :
    ∃ earlier first later, submissions = earlier ++ first :: later ∧ first.nullifierPk = pk ∧
      ∀ other ∈ earlier, other.nullifierPk ≠ pk := by
  obtain ⟨pending, hpending, hpk⟩ := List.mem_map.mp h
  have hfound : (submissions.find? fun p => decide (p.nullifierPk = pk)).isSome := by
    rw [List.find?_isSome]
    exact ⟨pending, hpending, decide_eq_true hpk⟩
  obtain ⟨first, hfirst⟩ := Option.isSome_iff_exists.mp hfound
  obtain ⟨hpk, earlier, later, hsplit, hearlier⟩ := List.find?_eq_some_iff_append.mp hfirst
  refine ⟨earlier, first, later, hsplit, of_decide_eq_true hpk, ?_⟩
  intro other hother
  simpa using hearlier other hother

/-- **The pipeline.**  A block with the aggregate of a run of submissions records each
    of its keys that is new, and that no verifying aggregate before it publishes, with
    the commitment of the first signature submitted for it and the publisher's fee
    address. -/
theorem pipeline_keeps_commitments [DecidableEq V] (P : Primitives A V) (mgr : ToSAccM M V)
    (profile : Profile) (N : NisshacBackend) (commitmentOf : N.Signature → SigCommitment)
    (hsound : AggregationSound P N commitmentOf) (config : MixerConfig)
    (feeAddress : Commitment)
    (calls : List (PendingNullifier N V × Except PublisherError Unit))
    (publisher : Publisher N V)
    (hrun : Run SubmitStep (Publisher.new config feeAddress) calls publisher)
    (agg : AggregateNullifier) (hbuild : buildAggregateNullifier P publisher = .ok (.ok agg))
    (node next : MixerNode B M) (blockHeight : UInt64)
    (before after : List AggregateNullifier)
    (hblock : BlockStep P mgr profile node (blockHeight, before ++ agg :: after) next)
    (msg : Message) (hmsg : P.fromDigestSlice stateUpdateText = some msg) (pk : PublicKey)
    (hpk : pk ∈ agg.pks) (hnew : pk ∉ node.wallet.nullifierKv)
    (hbefore : pk ∉ publishedKeys P msg before) :
    ∃ earlier first later blockchainLoc,
      acceptedSubmissions calls = earlier ++ first :: later ∧ first.nullifierPk = pk ∧
        (∀ other ∈ earlier, other.nullifierPk ≠ pk) ∧
        next.wallet.nullifierKv.lookup pk =
          some ⟨commitmentOf first.signature, blockchainLoc, feeAddress⟩ := by
  have hcollected := collected_run hrun
  obtain ⟨hpks, -⟩ := buildAggregateNullifier_positions hsound hbuild hmsg
  rw [hpks, hcollected.pending_eq] at hpk
  obtain ⟨earlier, first, later, hsplit, rfl, hfirst⟩ := exists_first_submission hpk
  have helement := first_submission_recorded hsound hbuild hmsg node.wallet.nullifierKv blockHeight
    before after (hcollected.pending_eq.trans hsplit) hfirst hnew hbefore
  have hentry := lookup_newElement hblock hmsg helement
  rw [kvEntry, hcollected.feeAddress_eq] at hentry
  exact ⟨earlier, first, later, _, hsplit, rfl, hfirst, hentry⟩

/-! ### The fee -/

/-- Ideal verifiers accept exactly the true statements. -/
structure IdealVerifiers {A : Type} (P : Primitives A Nav) : Prop where
  unionMembership : ∀ nav element proof,
    P.verifyUnionMembership nav element proof = true ↔ ∃ set ∈ nav, element ∈ set
  isPrefix : ∀ values nav proof,
    P.verifyIsPrefix values nav proof = true ↔ ∀ value ∈ values, value <+: nav

section Fee

variable {A : Type} {B : PcdBackend A Nav} {N : NisshacBackend} {P : Primitives A Nav}

/-- The fee output's key stands in for the submitted one: the node's accumulator holds it
    with the fee output's commitment, the fee address and the location that the block
    gives to the submitted key, or the block is the first to publish it, with that
    commitment and fee address and at a location of the same six bytes. -/
def StandsIn (node : MixerNode B Nav) (blockHeight : UInt64)
    (published : List (PublicKey × SigCommitment × Commitment)) (feeAddress : Commitment)
    (pending : PendingNullifier N Nav) : Prop :=
  (∃ set ∈ node.nullifierAccum, (pending.feeOutput.partialOutput.nullifierPk,
      pending.feeOutput.partialOutput.nullifierTxComm,
      recordedLoc node.wallet.nullifierKv blockHeight published pending.nullifierPk,
      feeAddress) ∈ set) ∨
    (pending.feeOutput.partialOutput.nullifierPk ∉ node.wallet.nullifierKv ∧
      published.lookup pending.feeOutput.partialOutput.nullifierPk =
        some (pending.feeOutput.partialOutput.nullifierTxComm, feeAddress) ∧
      recordedLoc node.wallet.nullifierKv blockHeight published pending.nullifierPk =
        recordedLoc node.wallet.nullifierKv blockHeight published
          pending.feeOutput.partialOutput.nullifierPk)

/-- The fee coin of a submission: at least the configured fee, at the fee address. -/
def FeeFinalizes (P : Primitives A Nav) (config : MixerConfig) (pending : PendingNullifier N Nav)
    (wLoc : PaymentFinalizeLocalInput Nav) : Prop :=
  ∃ coin, paymentFinalizeFee P pending.feeOutput wLoc = some coin ∧
    config.publisherFee ≤ coin.essence.amount ∧ coin.essence.address = wLoc.feeAcctComm

theorem feeFinalizes_iff (hideal : IdealVerifiers P) {config : MixerConfig}
    {pending : PendingNullifier N Nav} {wLoc : PaymentFinalizeLocalInput Nav}
    (hfee : config.publisherFee ≤ pending.feeOutput.fee)
    (hvalue : pending.feeOutput.partialOutput.nullifierAccum <+: wLoc.nullifierAccum) :
    FeeFinalizes P config pending wLoc ↔
      ∃ set ∈ wLoc.nullifierAccum, (pending.feeOutput.partialOutput.nullifierPk,
        pending.feeOutput.partialOutput.nullifierTxComm, wLoc.blockchainLoc,
        wLoc.feeAcctComm) ∈ set := by
  have hinternal : paymentFinalizeInternal P pending.feeOutput.partialOutput wLoc = true ↔
      ∃ set ∈ wLoc.nullifierAccum, (pending.feeOutput.partialOutput.nullifierPk,
        pending.feeOutput.partialOutput.nullifierTxComm, wLoc.blockchainLoc,
        wLoc.feeAcctComm) ∈ set := by
    rw [paymentFinalizeInternal_eq_true_iff, hideal.isPrefix, hideal.unionMembership]
    simp [hvalue]
  rw [← hinternal]
  constructor
  · rintro ⟨coin, hcoin, -⟩
    exact (paymentFinalizeFee_eq_some_iff.mp hcoin).1
  · intro haccepted
    exact ⟨_, paymentFinalizeFee_eq_some_iff.mpr ⟨haccepted, rfl⟩, hfee, rfl⟩

/-- With the value of the node after a block, the fee coin finalizes exactly when its key
    stands for the submitted one. -/
theorem feeFinalizes_after_block (hideal : IdealVerifiers P) {profile : Profile}
    {node next : MixerNode B Nav} {blockHeight : UInt64} {aggregates : List AggregateNullifier}
    (hblock : BlockStep P .ideal profile node (blockHeight, aggregates) next) {msg : Message}
    (hmsg : P.fromDigestSlice stateUpdateText = some msg) {config : MixerConfig}
    {pending : PendingNullifier N Nav} (hfee : config.publisherFee ≤ pending.feeOutput.fee)
    (hvalue : pending.feeOutput.partialOutput.nullifierAccum <+: next.nullifierAccum)
    (feeAddress : Commitment) (nmProof napProof : List UInt8) :
    FeeFinalizes P config pending
        ⟨feeAddress, recordedLoc node.wallet.nullifierKv blockHeight
          (occurrences P msg aggregates) pending.nullifierPk, currentNav .ideal next, nmProof,
          napProof⟩ ↔
      StandsIn node blockHeight (occurrences P msg aggregates) feeAddress pending := by
  have hnav : currentNav .ideal next = node.nullifierAccum ++
      [(newElements P msg node.wallet.nullifierKv blockHeight aggregates).toFinset] :=
    nullifierAccum_blockStep hblock hmsg
  rw [feeFinalizes_iff hideal hfee hvalue]
  simp only [hnav, StandsIn, List.mem_append, List.mem_singleton, or_and_right, exists_or,
    exists_eq_left, List.mem_toFinset, mem_newElements_iff_lookup]

/-- **The fee.**  The first accepted submission of a key that is new is recorded with its
    commitment.  It pays its fee when its fee output is for that key; when the fee output
    is for another key, it pays exactly when that key stands in for the submitted one. -/
theorem fee_finalizes_iff (P : Primitives A Nav) (profile : Profile) (N : NisshacBackend)
    (commitmentOf : N.Signature → SigCommitment) (hideal : IdealVerifiers P)
    (hsound : AggregationSound P N commitmentOf) (config : MixerConfig)
    (feeAddress : Commitment)
    (calls : List (PendingNullifier N Nav × Except PublisherError Unit))
    (publisher : Publisher N Nav)
    (hrun : Run SubmitStep (Publisher.new config feeAddress) calls publisher)
    (agg : AggregateNullifier) (hbuild : buildAggregateNullifier P publisher = .ok (.ok agg))
    (node next : MixerNode B Nav) (blockHeight : UInt64)
    (before after : List AggregateNullifier)
    (hblock : BlockStep P .ideal profile node (blockHeight, before ++ agg :: after) next)
    (msg : Message) (hmsg : P.fromDigestSlice stateUpdateText = some msg)
    (published : List (PublicKey × SigCommitment × Commitment))
    (hpublished : published = publications P msg commitmentOf feeAddress before
      (acceptedSubmissions calls) after)
    (earlier later : List (PendingNullifier N Nav)) (first : PendingNullifier N Nav)
    (hsplit : acceptedSubmissions calls = earlier ++ first :: later)
    (hfirst : ∀ other ∈ earlier, other.nullifierPk ≠ first.nullifierPk)
    (hnew : first.nullifierPk ∉ node.wallet.nullifierKv)
    (hbefore : first.nullifierPk ∉ publishedKeys P msg before)
    (hcommits : commitmentOf first.signature = first.feeOutput.partialOutput.nullifierTxComm)
    (hvalue : first.feeOutput.partialOutput.nullifierAccum <+: next.nullifierAccum) :
    next.wallet.nullifierKv.lookup first.nullifierPk =
        some ⟨commitmentOf first.signature,
          recordedLoc node.wallet.nullifierKv blockHeight published first.nullifierPk,
          feeAddress⟩ ∧
      ∀ nmProof napProof,
        (first.feeOutput.partialOutput.nullifierPk = first.nullifierPk →
          FeeFinalizes P config first
            ⟨feeAddress,
              recordedLoc node.wallet.nullifierKv blockHeight published first.nullifierPk,
              currentNav .ideal next, nmProof, napProof⟩) ∧
        (first.feeOutput.partialOutput.nullifierPk ≠ first.nullifierPk →
          (FeeFinalizes P config first
              ⟨feeAddress,
                recordedLoc node.wallet.nullifierKv blockHeight published first.nullifierPk,
                currentNav .ideal next, nmProof, napProof⟩ ↔
            StandsIn node blockHeight published feeAddress first)) := by
  have hcollected := collected_run hrun
  have helement := first_submission_recorded hsound hbuild hmsg node.wallet.nullifierKv blockHeight
    before after (hcollected.pending_eq.trans hsplit) hfirst hnew hbefore
  have hoccurrences := occurrences_eq_publications hsound hbuild hmsg before after
  rw [hcollected.feeAddress_eq, hcollected.pending_eq, ← hpublished] at helement hoccurrences
  refine ⟨?_, ?_⟩
  · rw [lookup_newElement hblock hmsg helement, kvEntry]
  intro nmProof napProof
  have hfee : config.publisherFee ≤ first.feeOutput.fee := by
    apply hcollected.fees
    rw [hsplit]
    exact List.mem_append_right _ List.mem_cons_self
  have hpays := feeFinalizes_after_block hideal hblock hmsg hfee hvalue feeAddress nmProof napProof
  rw [hoccurrences] at hpays
  refine ⟨?_, fun _ => hpays⟩
  -- for the submitted key itself, the block has just recorded what the fee output commits to
  intro hsame
  rw [mem_newElements_iff_lookup, hoccurrences] at helement
  obtain ⟨-, hlookup, -⟩ := helement
  apply hpays.mpr
  rw [StandsIn, hsame, ← hcommits]
  exact Or.inr ⟨hnew, hlookup, rfl⟩

end Fee

/-! ### A concrete pipeline -/

/-- Signatures of one byte, which aggregate to the list of the bytes. -/
def byteNisshac : NisshacBackend where
  Signature := UInt8
  aggregate entries := .ok ⟨entries.map Prod.fst⟩

def byteCommitment (signature : UInt8) : SigCommitment := ⟨beBytes 32 signature.toNat⟩

def bytePrimitives : Primitives (Finset CoinIdOnChain) Nav :=
  { idealPrimitives with
    commitRetrieve := fun sig i => byteCommitment (sig.bytes[i]?.getD 0) }

theorem byteNisshac_sound : AggregationSound bytePrimitives byteNisshac byteCommitment := by
  constructor
  · intro sigs agg _
    rfl
  · intro sigs agg hagg i entry hentry
    obtain rfl := Except.ok.inj hagg
    have hbyte : (sigs.map Prod.fst)[i]? = some entry.1 := by rw [List.getElem?_map, hentry]; rfl
    exact congrArg (fun byte : Option UInt8 => byteCommitment (byte.getD 0)) hbyte

theorem bytePrimitives_ideal : IdealVerifiers bytePrimitives := by
  constructor
  · intro nav element proof
    simp [bytePrimitives, idealPrimitives]
  · intro values nav proof
    simp [bytePrimitives, idealPrimitives]

/-- A submission of `pk` whose fee output is for the key `feePk`. -/
def bytePending (pk feePk : PublicKey) (signature : UInt8) : PendingNullifier byteNisshac Nav where
  nullifierPk := pk
  signature := signature
  feeOutput := ⟨⟨zeroBytes 32, feePk, byteCommitment signature, []⟩, 500⟩
  feeProof := []

def bytePublisher (pending : List (PendingNullifier byteNisshac Nav)) :
    Publisher byteNisshac Nav where
  config := MixerConfig.default
  pending := pending
  feeAddress := ⟨zeroBytes 32⟩

theorem byteSubmit_step (pending : List (PendingNullifier byteNisshac Nav)) (pk feePk : PublicKey)
    (signature : UInt8) :
    SubmitStep (bytePublisher pending) (bytePending pk feePk signature, .ok ())
      (bytePublisher (pending ++ [bytePending pk feePk signature])) := by
  have hfee : ¬ (500 : UInt64) < 500 := by decide
  exact if_neg hfee

def byteAggregate (pks : List PublicKey) (signatures : List UInt8) : AggregateNullifier where
  pks := pks
  sig := ⟨signatures⟩
  feeAcctComm := ⟨zeroBytes 32⟩

/-- A key that is submitted twice is recorded with one of its commitments, the first
    one submitted. -/
theorem repeated_submission_keeps_commitment :
    ∃ next : MixerNode (mockPcd : PcdBackend (Finset CoinIdOnChain) Nav) Nav,
      BlockStep bytePrimitives .ideal .debug sampleNode
          (1, [byteAggregate [sampleKey, sampleKey] [1, 2]]) next ∧
        ∃ earlier first later blockchainLoc,
          [bytePending sampleKey sampleKey 1, bytePending sampleKey sampleKey 2] =
              earlier ++ first :: later ∧ first.nullifierPk = sampleKey ∧
            (∀ other ∈ earlier, other.nullifierPk ≠ sampleKey) ∧
            next.wallet.nullifierKv.lookup sampleKey =
              some ⟨byteCommitment first.signature, blockchainLoc, ⟨zeroBytes 32⟩⟩ := by
  have hrun : Run SubmitStep (bytePublisher [])
      [(bytePending sampleKey sampleKey 1, .ok ()), (bytePending sampleKey sampleKey 2, .ok ())]
      (bytePublisher [bytePending sampleKey sampleKey 1, bytePending sampleKey sampleKey 2]) :=
    Run.snoc (Run.snoc Run.start (byteSubmit_step _ _ _ _)) (byteSubmit_step _ _ _ _)
  obtain ⟨next, hblock⟩ : ∃ next, BlockStep bytePrimitives .ideal .debug sampleNode
      (1, [byteAggregate [sampleKey, sampleKey] [1, 2]]) next := ⟨_, rfl⟩
  refine ⟨next, hblock, ?_⟩
  exact pipeline_keeps_commitments bytePrimitives .ideal .debug byteNisshac byteCommitment
    byteNisshac_sound MixerConfig.default ⟨zeroBytes 32⟩ _ _ hrun
    (byteAggregate [sampleKey, sampleKey] [1, 2]) rfl sampleNode next 1 [] [] hblock
    ⟨zeroBytes 32⟩ rfl sampleKey List.mem_cons_self (by decide) List.not_mem_nil

/-- A submission whose fee output is for another key is accepted, aggregated and
    recorded, and no proofs finalize its fee. -/
theorem other_key_loses_fee :
    SubmitStep (bytePublisher []) (bytePending sampleKey ⟨beBytes 32 2⟩ 1, .ok ())
        (bytePublisher [bytePending sampleKey ⟨beBytes 32 2⟩ 1]) ∧
      buildAggregateNullifier bytePrimitives
        (bytePublisher [bytePending sampleKey ⟨beBytes 32 2⟩ 1]) =
          .ok (.ok (byteAggregate [sampleKey] [1])) ∧
      ∃ (next : MixerNode (mockPcd : PcdBackend (Finset CoinIdOnChain) Nav) Nav)
        (blockchainLoc : BlockchainLocation),
        BlockStep bytePrimitives .ideal .debug sampleNode (1, [byteAggregate [sampleKey] [1]])
            next ∧
          next.wallet.nullifierKv.lookup sampleKey =
            some ⟨byteCommitment 1, blockchainLoc, ⟨zeroBytes 32⟩⟩ ∧
          ∀ nmProof napProof,
            paymentFinalizeFee bytePrimitives (bytePending sampleKey ⟨beBytes 32 2⟩ 1).feeOutput
              ⟨⟨zeroBytes 32⟩, blockchainLoc, currentNav .ideal next, nmProof, napProof⟩ =
                none := by
  refine ⟨byteSubmit_step _ _ _ _, rfl, _, _, rfl, rfl, ?_⟩
  intro nmProof napProof
  rfl

theorem same_key_pays_fee :
    ∃ (next : MixerNode (mockPcd : PcdBackend (Finset CoinIdOnChain) Nav) Nav)
      (blockchainLoc : BlockchainLocation),
      BlockStep bytePrimitives .ideal .debug sampleNode (1, [byteAggregate [sampleKey] [1]])
          next ∧
        FeeFinalizes bytePrimitives MixerConfig.default (bytePending sampleKey sampleKey 1)
          ⟨⟨zeroBytes 32⟩, blockchainLoc, currentNav .ideal next, [], []⟩ := by
  have hrun : Run SubmitStep (bytePublisher []) [(bytePending sampleKey sampleKey 1, .ok ())]
      (bytePublisher [bytePending sampleKey sampleKey 1]) :=
    Run.snoc Run.start (byteSubmit_step _ _ _ _)
  obtain ⟨next, hblock⟩ : ∃ next, BlockStep bytePrimitives .ideal .debug sampleNode
      (1, [byteAggregate [sampleKey] [1]]) next := ⟨_, rfl⟩
  obtain ⟨-, hpays⟩ := fee_finalizes_iff bytePrimitives .debug byteNisshac
    byteCommitment bytePrimitives_ideal byteNisshac_sound MixerConfig.default ⟨zeroBytes 32⟩ _ _
    hrun (byteAggregate [sampleKey] [1]) rfl sampleNode next 1 [] [] hblock ⟨zeroBytes 32⟩ rfl _
    rfl [] [] (bytePending sampleKey sampleKey 1) rfl
    (fun _ habs => absurd habs List.not_mem_nil) (by decide) List.not_mem_nil rfl List.nil_prefix
  exact ⟨next, _, hblock, (hpays [] []).1 rfl⟩

end PartyMix
