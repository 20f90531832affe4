import PartyMix.NodeIndex

/-!
# Aggregates that change nothing

Anybody can put an aggregate into a block.  One whose signature does not verify is
skipped by the scan, and so is one that publishes only keys that are known by then.
Leaving all of these out of a chain changes nothing at all: the same runs exist, reorgs
included, and they end in the same nodes.
-/

namespace PartyMix

open FirstWins FixedBytes MachineWord Transition

variable {A V M : Type} {B : PcdBackend A V} {P : Primitives A V} {mgr : ToSAccM M V}
  {profile : Profile} {msg : Message}

/-! ### Leaving them out -/

/-- The aggregates of a block that verify and publish a key that is neither known nor
    in an aggregate kept before. -/
def withoutIdle (P : Primitives A V) (msg : Message) (known : Finset PublicKey) :
    List AggregateNullifier → List AggregateNullifier
  | [] => []
  | aggregate :: rest =>
    if aggregateVerifies P msg aggregate && aggregate.pks.any (fun pk => decide (pk ∉ known)) then
      aggregate :: withoutIdle P msg (known ∪ aggregate.pks.toFinset) rest
    else
      withoutIdle P msg known rest

def withoutIdleEvent (P : Primitives A V) (msg : Message) (known : Finset PublicKey) :
    NodeEvent V → NodeEvent V
  | .connected block nav => .connected (block.1, withoutIdle P msg known block.2) nav
  | .disconnected blocks => .disconnected blocks

/-- The keys known after an event. -/
def knownAfter (P : Primitives A V) (msg : Message) (known : Finset PublicKey) :
    NodeEvent V → Finset PublicKey
  | .connected block _ => known ∪ (publishedKeys P msg block.2).toFinset
  | .disconnected _ => known

def eventsWithoutIdle (P : Primitives A V) (msg : Message) (known : Finset PublicKey) :
    List (NodeEvent V) → List (NodeEvent V)
  | [] => []
  | event :: rest =>
    withoutIdleEvent P msg known event ::
      eventsWithoutIdle P msg (knownAfter P msg known event) rest

theorem eventsWithoutIdle_snoc (known : Finset PublicKey) (events : List (NodeEvent V))
    (event : NodeEvent V) :
    eventsWithoutIdle P msg known (events ++ [event]) =
      eventsWithoutIdle P msg known events ++
        [withoutIdleEvent P msg (events.foldl (knownAfter P msg) known) event] := by
  induction events generalizing known with
  | nil => rfl
  | cons first rest ih =>
    rw [List.cons_append, eventsWithoutIdle, ih, eventsWithoutIdle, List.cons_append,
      List.foldl_cons]

/-! ### One block -/

theorem occurrences_cons_of_not {aggregate : AggregateNullifier}
    (hverifies : aggregateVerifies P msg aggregate = false) (after : List AggregateNullifier) :
    occurrences P msg (aggregate :: after) = occurrences P msg after := by
  rw [occurrences, List.filter_cons_of_neg (by simp [hverifies])]
  rfl

theorem firstNew_occurrences_cons {aggregate : AggregateNullifier}
    (hverifies : aggregateVerifies P msg aggregate = true) (known : Finset PublicKey)
    (after : List AggregateNullifier) :
    firstNew known (occurrences P msg (aggregate :: after)) =
      firstNew known (aggregate.pks.zipIdx.map (keyOccurrence P aggregate)) ++
        firstNew (known ∪ aggregate.pks.toFinset) (occurrences P msg after) := by
  have hkeys : (aggregate.pks.zipIdx.map (keyOccurrence P aggregate)).map Prod.fst =
      aggregate.pks := by
    rw [List.map_map]
    exact List.zipIdx_map_fst 0 aggregate.pks
  rw [occurrences_cons hverifies, firstNew_append, hkeys]

/-- The aggregates left out record nothing, and the others record what they did. -/
theorem firstNew_withoutIdle (known : Finset PublicKey) (aggregates : List AggregateNullifier) :
    firstNew known (occurrences P msg (withoutIdle P msg known aggregates)) =
      firstNew known (occurrences P msg aggregates) := by
  induction aggregates generalizing known with
  | nil => rfl
  | cons aggregate rest ih =>
    rw [withoutIdle]
    cases hverifies : aggregateVerifies P msg aggregate with
    | false =>
      rw [Bool.false_and, if_neg Bool.false_ne_true, ih, occurrences_cons_of_not hverifies]
    | true =>
      rw [Bool.true_and, firstNew_occurrences_cons hverifies]
      by_cases hnew : aggregate.pks.any (fun pk => decide (pk ∉ known)) = true
      · -- kept, and its keys are known from here on on both sides
        rw [if_pos hnew, firstNew_occurrences_cons hverifies, ih]
      · -- left out: it would have recorded nothing and taught no key
        have hold : ∀ pk ∈ aggregate.pks, pk ∈ known := by
          simpa using hnew
        have hnothing :
            firstNew known (aggregate.pks.zipIdx.map (keyOccurrence P aggregate)) = [] := by
          rw [firstNew_eq_nil_iff, List.map_map]
          intro pk hpk
          apply hold
          exact List.zipIdx_map_fst 0 aggregate.pks ▸ hpk
        have hsame : known ∪ aggregate.pks.toFinset = known := by
          rw [Finset.union_eq_left]
          intro pk hpk
          exact hold pk (List.mem_toFinset.mp hpk)
        rw [if_neg hnew, ih, hnothing, hsame, List.nil_append]

theorem newElements_withoutIdle (nullifierKv : HashMap PublicKey NullifierKvEntry)
    (blockHeight : UInt64) (aggregates : List AggregateNullifier) :
    newElements P msg nullifierKv blockHeight
        (withoutIdle P msg nullifierKv.keys aggregates) =
      newElements P msg nullifierKv blockHeight aggregates := by
  rw [newElements, newElements, firstNew_withoutIdle]

/-- Every aggregate that is kept verifies and publishes a key that was not known. -/
theorem verifies_of_mem_withoutIdle {known : Finset PublicKey}
    {aggregates : List AggregateNullifier} {aggregate : AggregateNullifier}
    (h : aggregate ∈ withoutIdle P msg known aggregates) :
    aggregateVerifies P msg aggregate = true ∧ ∃ pk ∈ aggregate.pks, pk ∉ known := by
  induction aggregates generalizing known with
  | nil => cases h
  | cons first rest ih =>
    rw [withoutIdle] at h
    split at h
    · next hkept =>
      rw [Bool.and_eq_true, List.any_eq_true] at hkept
      rcases List.mem_cons.mp h with rfl | hrest
      · obtain ⟨hverifies, pk, hpk, hnew⟩ := hkept
        exact ⟨hverifies, pk, hpk, of_decide_eq_true hnew⟩
      · obtain ⟨hverifies, pk, hpk, hnew⟩ := ih hrest
        exact ⟨hverifies, pk, hpk, fun habs => hnew (Finset.mem_union_left _ habs)⟩
    · exact ih h

/-! ### Runs -/

variable [DecidableEq V]

/-- A block acts by its height and its new elements alone. -/
theorem blockStep_of_newElements {node next : MixerNode B M} {blockHeight : UInt64}
    {aggregates others : List AggregateNullifier}
    (hmsg : P.fromDigestSlice stateUpdateText = some msg)
    (hsame : newElements P msg node.wallet.nullifierKv blockHeight aggregates =
      newElements P msg node.wallet.nullifierKv blockHeight others)
    (h : BlockStep P mgr profile node (blockHeight, aggregates) next) :
    BlockStep P mgr profile node (blockHeight, others) next := by
  obtain ⟨found, nullifierAccum, hfound, hfits, happend, hresult⟩ := processBlock_eq_ok_iff.mp h
  rw [hmsg, Option.some.injEq] at hfound
  subst hfound
  rw [hsame] at hfits happend hresult
  exact processBlock_eq_ok_iff.mpr ⟨msg, nullifierAccum, hmsg, hfits, happend, hresult⟩

theorem blockStep_withoutIdle_iff {node next : MixerNode B M} {block : Block}
    (hmsg : P.fromDigestSlice stateUpdateText = some msg) :
    BlockStep P mgr profile node
        (block.1, withoutIdle P msg node.wallet.nullifierKv.keys block.2) next ↔
      BlockStep P mgr profile node block next := by
  have hsame : newElements P msg node.wallet.nullifierKv block.1
      (withoutIdle P msg node.wallet.nullifierKv.keys block.2) =
        newElements P msg node.wallet.nullifierKv block.1 block.2 :=
    newElements_withoutIdle node.wallet.nullifierKv block.1 block.2
  constructor
  · exact blockStep_of_newElements hmsg hsame
  · exact blockStep_of_newElements hmsg hsame.symm

theorem nodeStep_withoutIdle_iff {node next : MixerNode B M} {event : NodeEvent V}
    (hmsg : P.fromDigestSlice stateUpdateText = some msg) :
    NodeStep P mgr profile node
        (withoutIdleEvent P msg node.wallet.nullifierKv.keys event) next ↔
      NodeStep P mgr profile node event next := by
  cases event with
  | connected block nav => exact and_congr_left' (blockStep_withoutIdle_iff hmsg)
  | disconnected blocks => exact Iff.rfl

theorem keys_nodeStep {node next : MixerNode B M} {event : NodeEvent V}
    (hmsg : P.fromDigestSlice stateUpdateText = some msg)
    (h : NodeStep P mgr profile node event next) :
    next.wallet.nullifierKv.keys = knownAfter P msg node.wallet.nullifierKv.keys event := by
  cases event with
  | connected block nav =>
    ext pk
    rw [nullifierKv_blockStep h.1 hmsg, Finmap.mem_keys, mem_insertAll_newElements, knownAfter,
      Finset.mem_union, Finmap.mem_keys, List.mem_toFinset]
  | disconnected blocks =>
    obtain ⟨-, rfl⟩ := handleReorg_eq_ok_iff.mp h
    rw [WalletState.nullifierKv_trimNullifierHistory]
    rfl

theorem keys_run {start node : MixerNode B M} {events : List (NodeEvent V)}
    (hmsg : P.fromDigestSlice stateUpdateText = some msg)
    (hrun : Run (NodeStep P mgr profile) start events node) :
    node.wallet.nullifierKv.keys =
      events.foldl (knownAfter P msg) start.wallet.nullifierKv.keys := by
  induction hrun with
  | start => rfl
  | snoc _ hlast ih => rw [keys_nodeStep hmsg hlast, ih, List.foldl_append]; rfl

omit [DecidableEq V] in
theorem subset_knownAfter (known : Finset PublicKey) (event : NodeEvent V) :
    known ⊆ knownAfter P msg known event := by
  cases event with
  | connected block nav => exact Finset.subset_union_left
  | disconnected blocks => exact Finset.Subset.refl known

omit [DecidableEq V] in
/-- What is kept is not idle: it verifies and publishes a key unknown at the start. -/
theorem kept_of_mem_eventsWithoutIdle {known : Finset PublicKey} {events : List (NodeEvent V)}
    {block : Block} {nav : V} (h : .connected block nav ∈ eventsWithoutIdle P msg known events)
    {aggregate : AggregateNullifier} (haggregate : aggregate ∈ block.2) :
    aggregateVerifies P msg aggregate = true ∧ ∃ pk ∈ aggregate.pks, pk ∉ known := by
  induction events generalizing known with
  | nil => cases h
  | cons event rest ih =>
    rw [eventsWithoutIdle, List.mem_cons] at h
    rcases h with heq | hrest
    · cases event with
      | connected first firstNav =>
        simp only [withoutIdleEvent, NodeEvent.connected.injEq] at heq
        obtain ⟨rfl, -⟩ := heq
        exact verifies_of_mem_withoutIdle haggregate
      | disconnected blocks => cases heq
    · obtain ⟨hverifies, pk, hpk, hnew⟩ := ih hrest
      exact ⟨hverifies, pk, hpk, fun habs => hnew (subset_knownAfter known event habs)⟩

/-- **Idle aggregates are invisible.**  From any node, a sequence of blocks and reorgs
    can be run exactly when it can be run with the idle aggregates left out of its
    blocks, and both runs end in the same node.  The aggregates that stay all verify and
    publish a key the start did not know. -/
theorem idle_aggregates_invisible (P : Primitives A V) (mgr : ToSAccM M V) (profile : Profile)
    (msg : Message) (hmsg : P.fromDigestSlice stateUpdateText = some msg)
    (start node : MixerNode B M) (events : List (NodeEvent V)) :
    (Run (NodeStep P mgr profile) start events node ↔
      Run (NodeStep P mgr profile) start
        (eventsWithoutIdle P msg start.wallet.nullifierKv.keys events) node) ∧
    ∀ block nav,
      .connected block nav ∈ eventsWithoutIdle P msg start.wallet.nullifierKv.keys events →
        ∀ aggregate ∈ block.2, aggregateVerifies P msg aggregate = true ∧
          ∃ pk ∈ aggregate.pks, pk ∉ start.wallet.nullifierKv := by
  constructor
  · -- both runs pass through the same nodes, so what is known at each block agrees
    induction events using List.reverseRecOn generalizing node with
    | nil => exact Iff.rfl
    | append_singleton events event ih =>
      rw [eventsWithoutIdle_snoc]
      constructor
      · intro hrun
        obtain ⟨middle, hinit, hlast⟩ := hrun.last
        rw [← keys_run hmsg hinit]
        exact Run.snoc ((ih middle).mp hinit) ((nodeStep_withoutIdle_iff hmsg).mpr hlast)
      · intro hrun
        obtain ⟨middle, hinit, hlast⟩ := hrun.last
        have hwhole := (ih middle).mpr hinit
        rw [← keys_run hmsg hwhole] at hlast
        exact Run.snoc hwhole ((nodeStep_withoutIdle_iff hmsg).mp hlast)
  · intro block nav hblock aggregate haggregate
    obtain ⟨hverifies, pk, hpk, hnew⟩ := kept_of_mem_eventsWithoutIdle hblock haggregate
    exact ⟨hverifies, pk, hpk, fun habs => hnew (Finmap.mem_keys.mpr habs)⟩

/-- A block that repeats an aggregate leaves the node that the block without the
    repetition leaves. -/
theorem repeatedAggregate_invisible :
    Run (NodeStep idealPrimitives .ideal .debug) sampleNode
      [.connected (1, [sampleAggregate [sampleKey], sampleAggregate [sampleKey]]) sampleChain]
      connectedNode := by
  obtain ⟨hsame, -⟩ := idle_aggregates_invisible idealPrimitives .ideal .debug ⟨zeroBytes 32⟩ rfl
    sampleNode connectedNode
    [.connected (1, [sampleAggregate [sampleKey], sampleAggregate [sampleKey]]) sampleChain]
  have hkept : eventsWithoutIdle idealPrimitives ⟨zeroBytes 32⟩ sampleNode.wallet.nullifierKv.keys
      [.connected (1, [sampleAggregate [sampleKey], sampleAggregate [sampleKey]]) sampleChain] =
        [.connected (1, [sampleAggregate [sampleKey]]) sampleChain] := rfl
  rw [hkept] at hsame
  exact hsame.mpr (Run.snoc Run.start connectedNode_step)

end PartyMix
