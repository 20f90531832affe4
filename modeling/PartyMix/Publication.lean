import PartyMix.NodeIndex
import PartyMix.PublisherPipeline

/-!
# From submissions to recorded keys over whole runs

The publisher collects submissions, builds aggregates of what is pending and clears the
pending list, in any order; the node connects and disconnects blocks.  A submission is
lost when it is cleared before it was built into an aggregate, so a run may clear only
what it has built.  Then, once the aggregates are in blocks, every accepted submission is
pending or its key is recorded, and with its own commitment when nobody else publishes the
key.  The fee of a recorded key is there exactly as long as the block that first
published it is connected: a reorg takes it, and mining the aggregate again does not
bring it back.
-/

namespace PartyMix

open ChainPrefix FirstWins FixedBytes MachineWord Transition

variable {A V M : Type} {B : PcdBackend A V} {N : NisshacBackend} {P : Primitives A V}

/-! ### Runs of the publisher -/

inductive PublisherEvent (N : NisshacBackend) (V : Type) where
  | submitted (pending : PendingNullifier N V) (result : Except PublisherError Unit)
  | built (aggregate : AggregateNullifier)
  | cleared

/-- A call of the publisher, successful where it builds. -/
def PublisherStep (P : Primitives A V) (publisher : Publisher N V) :
    PublisherEvent N V → Publisher N V → Prop
  | .submitted pending result, next => submitNullifier publisher pending = (result, next)
  | .built aggregate, next =>
    buildAggregateNullifier P publisher = .ok (.ok aggregate) ∧ next = publisher
  | .cleared, next => next = publisher.clearPending

/-- What is cleared was built into an aggregate. -/
def ClearsBuilt (P : Primitives A V) (calls : List (PublisherEvent N V))
    (publisher : Publisher N V) (call : PublisherEvent N V) : Prop :=
  call = .cleared → publisher.pendingCount = 0 ∨
    ∃ aggregate, .built aggregate ∈ calls ∧
      buildAggregateNullifier P publisher = .ok (.ok aggregate)

def accepted (calls : List (PublisherEvent N V)) : List (PendingNullifier N V) :=
  calls.filterMap fun call => match call with
    | .submitted pending (.ok ()) => some pending
    | _ => none

/-- The aggregate holds the submission: its key, with the commitment of its signature in
    the same position, and the address that collects the fee. -/
def Holds (P : Primitives A V) (commitmentOf : N.Signature → SigCommitment)
    (feeAddress : Commitment) (aggregate : AggregateNullifier)
    (pending : PendingNullifier N V) : Prop :=
  ∃ i : Nat, aggregate.pks[i]? = some pending.nullifierPk ∧
    P.commitRetrieve aggregate.sig i = commitmentOf pending.signature ∧
    aggregate.feeAcctComm = feeAddress

/-- Every accepted submission is pending or in an aggregate that was built, and the
    built aggregates verify and hold accepted submissions only. -/
structure Published (P : Primitives A V) (commitmentOf : N.Signature → SigCommitment)
    (config : MixerConfig) (feeAddress : Commitment) (msg : Message)
    (calls : List (PublisherEvent N V)) (publisher : Publisher N V) : Prop where
  config_eq : publisher.config = config
  feeAddress_eq : publisher.feeAddress = feeAddress
  fees : ∀ pending ∈ accepted calls, config.publisherFee ≤ pending.feeOutput.fee
  pending_accepted : ∀ pending ∈ publisher.pending, pending ∈ accepted calls
  kept : ∀ pending ∈ accepted calls, pending ∈ publisher.pending ∨
    ∃ aggregate, .built aggregate ∈ calls ∧ Holds P commitmentOf feeAddress aggregate pending
  verifies : ∀ aggregate, .built aggregate ∈ calls → aggregateVerifies P msg aggregate = true
  holds_accepted : ∀ aggregate, .built aggregate ∈ calls →
    ∀ (i : Nat) (pk : PublicKey), aggregate.pks[i]? = some pk →
      ∃ pending ∈ accepted calls, pending.nullifierPk = pk ∧
        P.commitRetrieve aggregate.sig i = commitmentOf pending.signature ∧
        aggregate.feeAcctComm = feeAddress

theorem built_holds {commitmentOf : N.Signature → SigCommitment}
    (hsound : AggregationSound P N commitmentOf) {publisher : Publisher N V}
    {aggregate : AggregateNullifier}
    (hbuild : buildAggregateNullifier P publisher = .ok (.ok aggregate)) {msg : Message}
    (hmsg : P.fromDigestSlice stateUpdateText = some msg) {pending : PendingNullifier N V}
    (hpending : pending ∈ publisher.pending) :
    Holds P commitmentOf publisher.feeAddress aggregate pending := by
  obtain ⟨i, hi⟩ := List.mem_iff_getElem?.mp hpending
  obtain ⟨hpks, hfee, -, hretrieves⟩ := buildAggregateNullifier_positions hsound hbuild hmsg
  refine ⟨i, ?_, hretrieves i pending hi, hfee⟩
  rw [hpks, List.getElem?_map, hi]
  rfl

section Run

variable {commitmentOf : N.Signature → SigCommitment} {config : MixerConfig}
  {feeAddress : Commitment} {msg : Message} {calls : List (PublisherEvent N V)}
  {publisher next : Publisher N V}

theorem accepted_append (calls later : List (PublisherEvent N V)) :
    accepted (calls ++ later) = accepted calls ++ accepted later := by
  simp [accepted]

/-- A call that accepts no submission and builds nothing leaves the obligations, as
    long as what it removes from the pending list is in a built aggregate. -/
theorem Published.unchanged {call : PublisherEvent N V}
    (hpublished : Published P commitmentOf config feeAddress msg calls publisher)
    (hcalls : accepted (calls ++ [call]) = accepted calls)
    (hnotBuilt : ∀ aggregate, call ≠ .built aggregate)
    (hconfig : next.config = publisher.config)
    (hfeeAddress : next.feeAddress = publisher.feeAddress)
    (hsub : ∀ pending ∈ next.pending, pending ∈ publisher.pending)
    (hremoved : ∀ pending ∈ publisher.pending, pending ∈ next.pending ∨
      ∃ aggregate, .built aggregate ∈ calls ∧ Holds P commitmentOf feeAddress aggregate pending) :
    Published P commitmentOf config feeAddress msg (calls ++ [call]) next := by
  have hbuilt : ∀ aggregate, .built aggregate ∈ calls ++ [call] → .built aggregate ∈ calls := by
    intro aggregate hmem
    rcases List.mem_append.mp hmem with hold | hlast
    · exact hold
    · exact absurd (List.mem_singleton.mp hlast).symm (hnotBuilt aggregate)
  constructor
  · rw [hconfig, hpublished.config_eq]
  · rw [hfeeAddress, hpublished.feeAddress_eq]
  · rw [hcalls]
    exact hpublished.fees
  · intro pending hpending
    rw [hcalls]
    exact hpublished.pending_accepted pending (hsub pending hpending)
  · intro pending hpending
    rw [hcalls] at hpending
    rcases hpublished.kept pending hpending with hwaits | ⟨aggregate, hmem, hholds⟩
    · rcases hremoved pending hwaits with hstays | ⟨aggregate, hmem, hholds⟩
      · exact Or.inl hstays
      · -- removed now, and built before
        exact Or.inr ⟨aggregate, List.mem_append_left _ hmem, hholds⟩
    · exact Or.inr ⟨aggregate, List.mem_append_left _ hmem, hholds⟩
  · intro aggregate hmem
    exact hpublished.verifies aggregate (hbuilt aggregate hmem)
  · intro aggregate hmem
    rw [hcalls]
    exact hpublished.holds_accepted aggregate (hbuilt aggregate hmem)

theorem published_accepted {pending : PendingNullifier N V}
    (hpublished : Published P commitmentOf config feeAddress msg calls publisher)
    (hfee : publisher.config.publisherFee ≤ pending.feeOutput.fee) :
    Published P commitmentOf config feeAddress msg (calls ++ [.submitted pending (.ok ())])
      { publisher with pending := publisher.pending ++ [pending] } := by
  have hcalls : accepted (calls ++ [.submitted pending (.ok ())]) = accepted calls ++ [pending] :=
    accepted_append _ _
  have hbuilt : ∀ aggregate, .built aggregate ∈ calls ++ [.submitted pending (.ok ())] →
      .built aggregate ∈ calls := by
    intro aggregate hmem
    simpa using hmem
  constructor
  · exact hpublished.config_eq
  · exact hpublished.feeAddress_eq
  · intro other hother
    rw [hcalls, List.mem_append, List.mem_singleton] at hother
    rcases hother with hold | rfl
    · exact hpublished.fees other hold
    · rw [← hpublished.config_eq]
      exact hfee
  · intro other hother
    rw [hcalls]
    rcases List.mem_append.mp hother with hold | hlast
    · exact List.mem_append_left _ (hpublished.pending_accepted other hold)
    · exact List.mem_append_right _ hlast
  · intro other hother
    rw [hcalls] at hother
    rcases List.mem_append.mp hother with hold | hlast
    · rcases hpublished.kept other hold with hwaits | ⟨aggregate, hmem, hholds⟩
      · exact Or.inl (List.mem_append_left _ hwaits)
      · exact Or.inr ⟨aggregate, List.mem_append_left _ hmem, hholds⟩
    · -- the new submission waits
      exact Or.inl (List.mem_append_right _ hlast)
  · intro aggregate hmem
    exact hpublished.verifies aggregate (hbuilt aggregate hmem)
  · intro aggregate hmem i pk hi
    obtain ⟨other, hother, hrest⟩ :=
      hpublished.holds_accepted aggregate (hbuilt aggregate hmem) i pk hi
    rw [hcalls]
    exact ⟨other, List.mem_append_left _ hother, hrest⟩

theorem published_built {aggregate : AggregateNullifier}
    (hsound : AggregationSound P N commitmentOf)
    (hmsg : P.fromDigestSlice stateUpdateText = some msg)
    (hpublished : Published P commitmentOf config feeAddress msg calls publisher)
    (hbuild : buildAggregateNullifier P publisher = .ok (.ok aggregate)) :
    Published P commitmentOf config feeAddress msg (calls ++ [.built aggregate]) publisher := by
  obtain ⟨hpks, hfee, hverifies, hretrieves⟩ := buildAggregateNullifier_positions hsound hbuild hmsg
  have hcalls : accepted (calls ++ [.built aggregate]) = accepted calls := by
    rw [accepted_append]
    exact List.append_nil _
  have hbuilt : ∀ other, .built other ∈ calls ++ [.built aggregate] →
      .built other ∈ calls ∨ other = aggregate := by
    intro other hmem
    simpa using hmem
  constructor
  · exact hpublished.config_eq
  · exact hpublished.feeAddress_eq
  · rw [hcalls]
    exact hpublished.fees
  · rw [hcalls]
    exact hpublished.pending_accepted
  · intro pending hpending
    rw [hcalls] at hpending
    rcases hpublished.kept pending hpending with hwaits | ⟨other, hmem, hholds⟩
    · exact Or.inl hwaits
    · exact Or.inr ⟨other, List.mem_append_left _ hmem, hholds⟩
  · intro other hmem
    rcases hbuilt other hmem with hold | rfl
    · exact hpublished.verifies other hold
    · exact hverifies
  · intro other hmem i pk hi
    rw [hcalls]
    rcases hbuilt other hmem with hold | rfl
    · exact hpublished.holds_accepted other hold i pk hi
    · -- the positions of the new aggregate are those of the pending list
      rw [hpks, List.getElem?_map, Option.map_eq_some_iff] at hi
      obtain ⟨pending, hpending, rfl⟩ := hi
      refine ⟨pending, hpublished.pending_accepted _ (List.mem_of_getElem? hpending), rfl, ?_, ?_⟩
      · exact hretrieves i pending hpending
      · rw [hfee, hpublished.feeAddress_eq]

theorem published_step {call : PublisherEvent N V}
    (hsound : AggregationSound P N commitmentOf)
    (hmsg : P.fromDigestSlice stateUpdateText = some msg)
    (hpublished : Published P commitmentOf config feeAddress msg calls publisher)
    (hclears : ClearsBuilt P calls publisher call) (h : PublisherStep P publisher call next) :
    Published P commitmentOf config feeAddress msg (calls ++ [call]) next := by
  cases call with
  | submitted pending result =>
    rcases submitNullifier_cases h with ⟨rfl, hfee, rfl⟩ | ⟨⟨error, rfl⟩, rfl⟩
    · exact published_accepted hpublished hfee
    · -- a refused submission leaves the publisher as it was
      refine hpublished.unchanged ?_ nofun rfl rfl (fun _ hpending => hpending)
        (fun _ hpending => Or.inl hpending)
      rw [accepted_append]
      exact List.append_nil _
  | built aggregate =>
    obtain ⟨hbuild, rfl⟩ := h
    exact published_built hsound hmsg hpublished hbuild
  | cleared =>
    obtain rfl : next = publisher.clearPending := h
    refine hpublished.unchanged ?_ nofun rfl rfl nofun ?_
    · rw [accepted_append]
      exact List.append_nil _
    · intro pending hpending
      rcases hclears rfl with hempty | ⟨aggregate, hmem, hbuild⟩
      · -- nothing was pending
        rw [Publisher.pendingCount, List.length_eq_zero_iff] at hempty
        rw [hempty] at hpending
        cases hpending
      · -- what is pending was built into an aggregate before it is cleared
        have hholds := built_holds hsound hbuild hmsg hpending
        rw [hpublished.feeAddress_eq] at hholds
        exact Or.inr ⟨aggregate, hmem, hholds⟩

theorem published_run (hsound : AggregationSound P N commitmentOf)
    (hmsg : P.fromDigestSlice stateUpdateText = some msg)
    (hrun : Meets (PublisherStep P) (ClearsBuilt P) (Publisher.new config feeAddress) calls
      publisher) :
    Published P commitmentOf config feeAddress msg calls publisher := by
  refine hrun.invariant (I := Published P commitmentOf config feeAddress msg) ?_ ?_
  · intro calls publisher call next hpublished hclears hstep
    exact published_step hsound hmsg hpublished hclears hstep
  · exact ⟨rfl, rfl, nofun, nofun, nofun, nofun, nofun⟩

end Run

/-! ### The chain -/

/-- The block that published the key first is still connected. -/
def FirstBlockConnected (P : Primitives A V) (msg : Message) (log : ChainLog)
    (pk : PublicKey) : Prop :=
  ∃ record ∈ log.surviving, pk ∉ chainKeys P msg record.1 ∧
    pk ∈ publishedKeys P msg record.2.2

/-- Every aggregate of the blocks that verifies and publishes the key is one of the
    publisher's. -/
def OnlyPublisher (P : Primitives A V) (msg : Message) (calls : List (PublisherEvent N V))
    (blocks : List Block) (pk : PublicKey) : Prop :=
  ∀ block ∈ blocks, ∀ aggregate ∈ block.2, aggregateVerifies P msg aggregate = true →
    pk ∈ aggregate.pks → .built aggregate ∈ calls

theorem FirstOccurrence.mem_publishedKeys {msg : Message} {aggregates : List AggregateNullifier}
    {pk : PublicKey} {sigComm : SigCommitment} {feeAcctComm : Commitment}
    (h : FirstOccurrence P msg aggregates pk sigComm feeAcctComm) :
    pk ∈ publishedKeys P msg aggregates := by
  obtain ⟨before, aggregate, after, earlier, later, rfl, hverifies, -, hpks, -⟩ := h
  refine PartyMix.mem_publishedKeys.mpr ⟨aggregate, by simp, hverifies, ?_⟩
  rw [hpks]
  simp

section Chain

variable {commitmentOf : N.Signature → SigCommitment} {config : MixerConfig}
  {feeAddress : Commitment} {msg : Message} {calls : List (PublisherEvent N V)}
  {publisher : Publisher N V}

/-- A key that only the publisher publishes, and for which all accepted submissions have
    one commitment, is recorded with it. -/
theorem entry_of_onlyPublisher
    (hpublished : Published P commitmentOf config feeAddress msg calls publisher)
    {blocks : List Block} {pk : PublicKey} (honly : OnlyPublisher P msg calls blocks pk)
    {sigComm : SigCommitment}
    (honce : ∀ other ∈ accepted calls, other.nullifierPk = pk →
      commitmentOf other.signature = sigComm)
    {entry : NullifierKvEntry} (hentry : ChainEntry P msg blocks pk entry) :
    entry.sigComm = sigComm ∧ entry.feeAcctComm = feeAddress := by
  obtain ⟨before, block, after, rfl, hfirst⟩ := hentry
  obtain ⟨skipped, aggregate, rest, earlier, later, haggregates, hverifies, -, hpks, -, hcomm,
    hfee⟩ := hfirst.first
  have hbuilt : .built aggregate ∈ calls := by
    apply honly block (by simp) aggregate (by rw [haggregates]; simp) hverifies
    rw [hpks]
    simp
  have hposition : aggregate.pks[earlier.length]? = some pk := by
    rw [hpks]
    simp
  obtain ⟨other, hother, hpk, hcommits, haddress⟩ :=
    hpublished.holds_accepted aggregate hbuilt _ _ hposition
  rw [hcomm, hfee, hcommits]
  exact ⟨honce other hother hpk, haddress⟩

end Chain

section Fee

variable {A : Type} {B : PcdBackend A Nav} {P : Primitives A Nav} {profile : Profile}

/-- The accumulator holds the entry of a recorded key exactly while the block that first
    published the key is connected. -/
theorem entry_in_accumulator_iff {config : MixerConfig} {wallet : WalletState A Nav}
    (hempty : wallet.nullifierKv = ∅) {msg : Message}
    (hmsg : P.fromDigestSlice stateUpdateText = some msg) {events : List (NodeEvent Nav)}
    {node : MixerNode B Nav}
    (hrun : Run (NodeStep P .ideal profile) (MixerNode.new .ideal config wallet) events node)
    {pk : PublicKey} {entry : NullifierKvEntry}
    (hentry : node.wallet.nullifierKv.lookup pk = some entry) :
    (∃ set ∈ node.nullifierAccum,
        (pk, entry.sigComm, entry.blockchainLoc, entry.feeAcctComm) ∈ set) ↔
      FirstBlockConnected P msg (chainLog events) pk := by
  have hsets := setsIndex_run (keepsSets_ideal profile) hempty hmsg hrun
  have hlength := hsets.length_eq
  constructor
  · rintro ⟨set, hset, helement⟩
    obtain ⟨i, hi, rfl⟩ := List.getElem_of_mem hset
    have hfirst := (List.forall₂_iff_get.mp hsets).2 i hi (hlength ▸ hi) pk entry.sigComm
      entry.blockchainLoc entry.feeAcctComm |>.mp helement
    exact ⟨_, List.get_mem _ ⟨i, hlength ▸ hi⟩, hfirst.unpublished,
      hfirst.first.mem_publishedKeys⟩
  · rintro ⟨record, hrecord, hunpublished, hpublished⟩
    obtain ⟨i, hi, rfl⟩ := List.getElem_of_mem hrecord
    obtain ⟨sigComm, feeAcctComm, hfirst⟩ := exists_firstOccurrence hpublished
    have helement := (List.forall₂_iff_get.mp hsets).2 i (hlength.symm ▸ hi) hi pk sigComm _
      feeAcctComm |>.mpr ⟨hunpublished, hfirst, rfl⟩
    have hset := List.get_mem node.nullifierAccum ⟨i, hlength.symm ▸ hi⟩
    -- the map says one thing about the key, so this is the entry
    have hlookup := indexed_run hrun _ hset _ helement
    rw [hentry, Option.some.injEq] at hlookup
    subst hlookup
    exact ⟨_, hset, helement⟩

/-- The fee output is for the submitted key and signature, and its accumulator value is
    an earlier one of the node. -/
structure OwnFeeOutput (commitmentOf : N.Signature → SigCommitment) (nav : Nav)
    (pending : PendingNullifier N Nav) : Prop where
  key : pending.feeOutput.partialOutput.nullifierPk = pending.nullifierPk
  commits : pending.feeOutput.partialOutput.nullifierTxComm = commitmentOf pending.signature
  earlier : pending.feeOutput.partialOutput.nullifierAccum <+: nav

/-- **From a submission to its fee.**  In every run that clears only what it has built and
    whose aggregates are in blocks, an accepted submission is pending or its key is
    recorded.  When nobody else publishes the key and it is submitted with one commitment,
    the record is the submission's own, and its fee finalizes exactly as long as the block
    that first published the key is connected. -/
theorem submission_pays_while_connected (P : Primitives A Nav) (profile : Profile)
    (N : NisshacBackend) (commitmentOf : N.Signature → SigCommitment)
    (hideal : IdealVerifiers P) (hsound : AggregationSound P N commitmentOf)
    (config : MixerConfig) (feeAddress : Commitment) (calls : List (PublisherEvent N Nav))
    (publisher : Publisher N Nav)
    (hpublisher : Meets (PublisherStep P) (ClearsBuilt P) (Publisher.new config feeAddress) calls
      publisher)
    (nodeConfig : MixerConfig) (wallet : WalletState A Nav) (hempty : wallet.nullifierKv = ∅)
    (events : List (NodeEvent Nav)) (node : MixerNode B Nav)
    (hnode : Run (NodeStep P .ideal profile) (MixerNode.new .ideal nodeConfig wallet) events node)
    (msg : Message) (hmsg : P.fromDigestSlice stateUpdateText = some msg)
    (hposted : ∀ aggregate, .built aggregate ∈ calls →
      ∃ block ∈ (chainLog events).connected, aggregate ∈ block.2)
    (pending : PendingNullifier N Nav) (haccepted : pending ∈ accepted calls) :
    (pending ∈ publisher.pending ∨ pending.nullifierPk ∈ node.wallet.nullifierKv) ∧
      (OnlyPublisher P msg calls (chainLog events).connected pending.nullifierPk →
        (∀ other ∈ accepted calls, other.nullifierPk = pending.nullifierPk →
          commitmentOf other.signature = commitmentOf pending.signature) →
        ∀ entry, node.wallet.nullifierKv.lookup pending.nullifierPk = some entry →
          entry.sigComm = commitmentOf pending.signature ∧ entry.feeAcctComm = feeAddress ∧
            (OwnFeeOutput commitmentOf node.nullifierAccum pending →
              ∀ nmProof napProof, FeeFinalizes P config pending
                  ⟨feeAddress, entry.blockchainLoc, currentNav .ideal node, nmProof, napProof⟩ ↔
                FirstBlockConnected P msg (chainLog events) pending.nullifierPk)) := by
  have hpublished := published_run hsound hmsg hpublisher
  have hindexes := mapIndexes_run hempty hmsg hnode
  constructor
  · rcases hpublished.kept pending haccepted with hwaits | ⟨aggregate, hbuilt, i, hi, -⟩
    · exact Or.inl hwaits
    · -- its aggregate was built, posted and connected, so the map has the key
      obtain ⟨block, hblock, haggregate⟩ := hposted aggregate hbuilt
      apply Or.inr
      rw [hindexes.keys, chainKeys, List.mem_flatMap]
      exact ⟨block, hblock, mem_publishedKeys.mpr
        ⟨aggregate, haggregate, hpublished.verifies aggregate hbuilt, List.mem_of_getElem? hi⟩⟩
  · -- the record is the submission's own, so the fee asks for exactly the element of the record
    intro honly honce entry hentry
    obtain ⟨hcomm, haddress⟩ := entry_of_onlyPublisher hpublished honly honce
      ((hindexes.entries _ _).mp hentry)
    refine ⟨hcomm, haddress, ?_⟩
    intro hown nmProof napProof
    have hnav : currentNav .ideal node = node.nullifierAccum := rfl
    have hfee := hpublished.fees pending haccepted
    rw [feeFinalizes_iff hideal hfee (hnav ▸ hown.earlier), hnav, hown.key, hown.commits,
      ← hcomm, ← haddress]
    exact entry_in_accumulator_iff hempty hmsg hnode hentry

end Fee

/-! ### A fee that a reorg takes -/

/-- The publisher collects one submission, builds its aggregate and clears it. -/
def oneSubmission : List (PublisherEvent byteNisshac Nav) :=
  [.submitted (bytePending sampleKey sampleKey 1) (.ok ()),
    .built (byteAggregate [sampleKey] [1]), .cleared]

theorem oneSubmission_run :
    Meets (PublisherStep bytePrimitives) (ClearsBuilt bytePrimitives)
      (Publisher.new MixerConfig.default ⟨zeroBytes 32⟩) oneSubmission (bytePublisher []) := by
  have hsubmitted : PublisherStep bytePrimitives (Publisher.new MixerConfig.default ⟨zeroBytes 32⟩)
      (.submitted (bytePending sampleKey sampleKey 1) (.ok ()))
      (bytePublisher [bytePending sampleKey sampleKey 1]) := byteSubmit_step [] _ _ _
  have hbuilt : PublisherStep bytePrimitives (bytePublisher [bytePending sampleKey sampleKey 1])
      (.built (byteAggregate [sampleKey] [1]))
      (bytePublisher [bytePending sampleKey sampleKey 1]) := ⟨rfl, rfl⟩
  have hcleared : PublisherStep bytePrimitives (bytePublisher [bytePending sampleKey sampleKey 1])
      .cleared (bytePublisher []) := rfl
  refine Meets.snoc (Meets.snoc (Meets.snoc Meets.start nofun hsubmitted) nofun hbuilt) ?_ hcleared
  intro _
  exact Or.inr ⟨byteAggregate [sampleKey] [1], by simp, rfl⟩

theorem onlyPublisher_of_oneSubmission {blocks : List Block}
    (hblocks : ∀ block ∈ blocks, block.2 = [byteAggregate [sampleKey] [1]]) (pk : PublicKey) :
    OnlyPublisher bytePrimitives ⟨zeroBytes 32⟩ oneSubmission blocks pk := by
  intro block hblock aggregate haggregate _ _
  rw [hblocks block hblock, List.mem_singleton] at haggregate
  rw [haggregate]
  simp [oneSubmission]

theorem oneSubmission_once : ∀ other ∈ accepted oneSubmission,
    other.nullifierPk = (bytePending sampleKey sampleKey 1).nullifierPk →
      byteCommitment other.signature =
        byteCommitment (bytePending sampleKey sampleKey 1).signature := by
  intro other hother _
  rw [List.mem_singleton.mp (show other ∈ [bytePending sampleKey sampleKey 1] from hother)]

theorem oneSubmission_posted {blocks : List Block}
    (hblock : (1, [byteAggregate [sampleKey] [1]]) ∈ blocks) :
    ∀ aggregate, .built aggregate ∈ oneSubmission → ∃ block ∈ blocks, aggregate ∈ block.2 := by
  intro aggregate hbuilt
  refine ⟨_, hblock, ?_⟩
  simpa [oneSubmission] using hbuilt

/-- The aggregate is mined and the fee finalizes; after a reorg the same aggregate is mined
    again, and the fee does not finalize any more. -/
theorem reorg_takes_fee :
    ∃ (mined again : MixerNode (mockPcd : PcdBackend (Finset CoinIdOnChain) Nav) Nav)
      (blockchainLoc : BlockchainLocation),
      mined.wallet.nullifierKv.lookup sampleKey =
          some ⟨byteCommitment 1, blockchainLoc, ⟨zeroBytes 32⟩⟩ ∧
        again.wallet.nullifierKv.lookup sampleKey =
          some ⟨byteCommitment 1, blockchainLoc, ⟨zeroBytes 32⟩⟩ ∧
        FeeFinalizes bytePrimitives MixerConfig.default (bytePending sampleKey sampleKey 1)
          ⟨⟨zeroBytes 32⟩, blockchainLoc, currentNav .ideal mined, [], []⟩ ∧
        ¬ FeeFinalizes bytePrimitives MixerConfig.default (bytePending sampleKey sampleKey 1)
          ⟨⟨zeroBytes 32⟩, blockchainLoc, currentNav .ideal again, [], []⟩ := by
  obtain ⟨mined, hmined, hminedEntry⟩ : ∃ mined, BlockStep bytePrimitives .ideal .debug sampleNode
      (1, [byteAggregate [sampleKey] [1]]) mined ∧ mined.wallet.nullifierKv.lookup sampleKey =
        some ⟨byteCommitment 1, locationBytes (2 ^ 24), ⟨zeroBytes 32⟩⟩ := ⟨_, rfl, rfl⟩
  obtain ⟨reorged, hreorged⟩ : ∃ reorged, handleReorg .ideal mined 1 = (.ok (), reorged) := by
    cases hmined
    exact ⟨_, rfl⟩
  obtain ⟨again, hagain⟩ : ∃ again, BlockStep bytePrimitives .ideal .debug reorged
      (1, [byteAggregate [sampleKey] [1]]) again := by
    cases hmined
    cases hreorged
    exact ⟨_, rfl⟩
  have hreorgStep : NodeStep bytePrimitives .ideal .debug mined (.disconnected 1) reorged := hreorged
  have hminedStep : NodeStep bytePrimitives .ideal .debug sampleNode
      (.connected (1, [byteAggregate [sampleKey] [1]]) (currentNav .ideal mined)) mined :=
    ⟨hmined, rfl⟩
  have hagainStep : NodeStep bytePrimitives .ideal .debug reorged
      (.connected (1, [byteAggregate [sampleKey] [1]]) (currentNav .ideal again)) again :=
    ⟨hagain, rfl⟩
  have hagainEntry := lookup_blockStep hagain (lookup_nodeStep hreorgStep hminedEntry)
  -- on every run whose blocks hold this aggregate the fee follows the first one
  have hpays {events : List (NodeEvent Nav)}
      {node : MixerNode (mockPcd : PcdBackend (Finset CoinIdOnChain) Nav) Nav}
      (hrun : Run (NodeStep bytePrimitives .ideal .debug) sampleNode events node)
      (hmem : (1, [byteAggregate [sampleKey] [1]]) ∈ (chainLog events).connected)
      (hblocks : ∀ block ∈ (chainLog events).connected,
        block.2 = [byteAggregate [sampleKey] [1]])
      (hentry : node.wallet.nullifierKv.lookup sampleKey =
        some ⟨byteCommitment 1, locationBytes (2 ^ 24), ⟨zeroBytes 32⟩⟩) :=
    ((submission_pays_while_connected bytePrimitives .debug byteNisshac byteCommitment
      bytePrimitives_ideal byteNisshac_sound MixerConfig.default ⟨zeroBytes 32⟩ oneSubmission
      (bytePublisher []) oneSubmission_run MixerConfig.default (WalletState.new []) rfl events node
      hrun ⟨zeroBytes 32⟩ rfl (oneSubmission_posted hmem) (bytePending sampleKey sampleKey 1)
      List.mem_cons_self).2 (onlyPublisher_of_oneSubmission hblocks _) oneSubmission_once _
      hentry).2.2 ⟨rfl, rfl, List.nil_prefix⟩ [] []
  have hfirst := Run.snoc Run.start hminedStep
  have hsecond := Run.snoc (Run.snoc hfirst hreorgStep) hagainStep
  refine ⟨mined, again, _, hminedEntry, hagainEntry, ?_, ?_⟩
  · apply (hpays hfirst (by simp [chainLog, ChainLog.after]) (by simp [chainLog, ChainLog.after])
      hminedEntry).mpr
    exact ⟨([], (1, [byteAggregate [sampleKey] [1]])), List.mem_cons_self, by decide, by decide⟩
  · rw [hpays hsecond (by simp [chainLog, ChainLog.after]) (by simp [chainLog, ChainLog.after])
      hagainEntry]
    rintro ⟨record, hrecord, hunpublished, -⟩
    obtain rfl := List.mem_singleton.mp hrecord
    exact hunpublished List.mem_cons_self

end PartyMix
