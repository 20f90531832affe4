import PartyMix.DoubleSpend

/-!
# The record of a block

What `process_block` writes, said without its loops: each key that is new and occurs
in an aggregate that verifies gets the entry of its first occurrence, and the set
handed to the accumulator lists the new entries in the order of these occurrences,
the `k`-th at the location `height * 2^24 + k`.
-/

namespace PartyMix

open FirstWins FixedBytes MachineWord

variable {A V M : Type} {B : PcdBackend A V} {P : Primitives A V} {msg : Message}
  {aggregates : List AggregateNullifier} {nullifierKv : HashMap PublicKey NullifierKvEntry}
  {blockHeight : UInt64}

/-! ### First occurrences -/

/-- The first occurrence of a key: in an aggregate that verifies, with the commitment
    of its position there and the aggregate's fee address, the key being neither
    published by an earlier aggregate that verifies nor earlier in this one. -/
def FirstOccurrence (P : Primitives A V) (msg : Message) (aggregates : List AggregateNullifier)
    (pk : PublicKey) (sigComm : SigCommitment) (feeAcctComm : Commitment) : Prop :=
  ∃ before aggregate after earlier later,
    aggregates = before ++ aggregate :: after ∧ aggregateVerifies P msg aggregate = true ∧
      pk ∉ publishedKeys P msg before ∧ aggregate.pks = earlier ++ pk :: later ∧ pk ∉ earlier ∧
      sigComm = P.commitRetrieve aggregate.sig earlier.length ∧
      feeAcctComm = aggregate.feeAcctComm

theorem mem_publishedKeys {pk : PublicKey} :
    pk ∈ publishedKeys P msg aggregates ↔
      ∃ aggregate ∈ aggregates, aggregateVerifies P msg aggregate = true ∧ pk ∈ aggregate.pks := by
  simp [publishedKeys, and_assoc]

theorem exists_firstOccurrence {pk : PublicKey} (h : pk ∈ publishedKeys P msg aggregates) :
    ∃ sigComm feeAcctComm, FirstOccurrence P msg aggregates pk sigComm feeAcctComm := by
  obtain ⟨found, hfound, hverifies, hpk⟩ := mem_publishedKeys.mp h
  have hsome : (aggregates.find? fun aggregate =>
      aggregateVerifies P msg aggregate && decide (pk ∈ aggregate.pks)).isSome := by
    rw [List.find?_isSome]
    exact ⟨found, hfound, by simp [hverifies, hpk]⟩
  obtain ⟨aggregate, hfirst⟩ := Option.isSome_iff_exists.mp hsome
  obtain ⟨hholds, before, after, hsplit, hbefore⟩ := List.find?_eq_some_iff_append.mp hfirst
  rw [Bool.and_eq_true, decide_eq_true_eq] at hholds
  obtain ⟨earlier, later, hpks, hearlier⟩ := List.eq_append_cons_of_mem hholds.2
  refine ⟨_, _, before, aggregate, after, earlier, later, hsplit, hholds.1, ?_, hpks, hearlier,
    rfl, rfl⟩
  intro habs
  obtain ⟨other, hother, hotherVerifies, hotherPk⟩ := mem_publishedKeys.mp habs
  have hnot := hbefore other hother
  simp [hotherVerifies, hotherPk] at hnot

/-- The first occurrence of a key is what a lookup finds in the list of occurrences. -/
theorem FirstOccurrence.lookup {pk : PublicKey} {sigComm : SigCommitment}
    {feeAcctComm : Commitment} (h : FirstOccurrence P msg aggregates pk sigComm feeAcctComm) :
    (occurrences P msg aggregates).lookup pk = some (sigComm, feeAcctComm) := by
  obtain ⟨before, aggregate, after, earlier, later, rfl, hverifies, hbefore, hpks, hearlier, rfl,
    rfl⟩ := h
  have hzip : aggregate.pks.zipIdx =
      earlier.zipIdx ++ (pk, earlier.length) :: later.zipIdx (earlier.length + 1) := by
    rw [hpks, List.zipIdx_append, List.zipIdx_cons, Nat.zero_add]
  have hkeys : (earlier.zipIdx.map (keyOccurrence P aggregate)).map Prod.fst = earlier := by
    rw [List.map_map]
    exact List.zipIdx_map_fst 0 earlier
  rw [List.lookup_eq_some_iff]
  refine ⟨occurrences P msg before ++ earlier.zipIdx.map (keyOccurrence P aggregate),
    (later.zipIdx (earlier.length + 1)).map (keyOccurrence P aggregate) ++
      occurrences P msg after, ?_, ?_⟩
  · rw [occurrences_append, occurrences_cons hverifies, hzip, List.map_append, List.map_cons]
    simp only [List.cons_append, List.append_assoc]
    rfl
  · -- neither the aggregates before nor the positions ahead have the key
    intro occurrence hoccurrence
    rw [bne_iff_ne]
    rintro rfl
    have hkey := List.mem_map_of_mem (f := Prod.fst) hoccurrence
    rw [List.map_append, map_fst_occurrences, hkeys, List.mem_append] at hkey
    rcases hkey with hpublished | hahead
    · exact hbefore hpublished
    · exact hearlier hahead

theorem firstOccurrence_iff {pk : PublicKey} {sigComm : SigCommitment}
    {feeAcctComm : Commitment} :
    FirstOccurrence P msg aggregates pk sigComm feeAcctComm ↔
      (occurrences P msg aggregates).lookup pk = some (sigComm, feeAcctComm) := by
  constructor
  · exact FirstOccurrence.lookup
  · intro hlookup
    obtain ⟨ahead, rest, hsplit, -⟩ := List.lookup_eq_some_iff.mp hlookup
    have hpublished : pk ∈ publishedKeys P msg aggregates := by
      rw [← map_fst_occurrences, hsplit]
      simp
    obtain ⟨sigComm', feeAcctComm', hfirst⟩ := exists_firstOccurrence hpublished
    rw [hfirst.lookup] at hlookup
    cases hlookup
    exact hfirst

/-! ### The record -/

theorem getElem?_numbered (loc : Nat)
    (recorded : List (PublicKey × SigCommitment × Commitment)) (k : Nat) :
    (numbered loc recorded)[k]? = recorded[k]?.map fun occurrence =>
      (occurrence.1, occurrence.2.1, locationBytes (loc + k), occurrence.2.2) := by
  induction recorded generalizing loc k with
  | nil => rfl
  | cons occurrence rest ih =>
    cases k with
    | zero => rfl
    | succ k =>
      rw [numbered, List.getElem?_cons_succ, List.getElem?_cons_succ, ih, Nat.add_right_comm]
      rfl

/-- The location that a block at the height gives to a new key, where `published` lists
    what the block publishes. -/
def recordedLoc (nullifierKv : HashMap PublicKey NullifierKvEntry) (blockHeight : UInt64)
    (published : List (PublicKey × SigCommitment × Commitment)) (pk : PublicKey) :
    BlockchainLocation :=
  locationBytes (blockHeight.toNat * 2 ^ 24 + newAhead nullifierKv.keys published pk)

theorem getElem?_newElements (blockHeight : UInt64) {pk : PublicKey} {sigComm : SigCommitment}
    {feeAcctComm : Commitment} (hnew : pk ∉ nullifierKv)
    (hlookup : (occurrences P msg aggregates).lookup pk = some (sigComm, feeAcctComm)) :
    (newElements P msg nullifierKv blockHeight aggregates)[newAhead nullifierKv.keys
        (occurrences P msg aggregates) pk]? =
      some (pk, sigComm, recordedLoc nullifierKv blockHeight (occurrences P msg aggregates) pk,
        feeAcctComm) := by
  have hkept := getElem?_firstNew_eq_some_iff.mpr
    ⟨fun habs => hnew (Finmap.mem_keys.mp habs), hlookup, rfl⟩
  rw [newElements, getElem?_numbered, hkept]
  rfl

/-- A block records the new keys, each with its first occurrence, at the number of the
    new keys ahead of it. -/
theorem mem_newElements_iff_lookup {pk : PublicKey} {sigComm : SigCommitment}
    {blockchainLoc : BlockchainLocation} {feeAcctComm : Commitment} :
    (pk, sigComm, blockchainLoc, feeAcctComm) ∈
        newElements P msg nullifierKv blockHeight aggregates ↔
      pk ∉ nullifierKv ∧
        (occurrences P msg aggregates).lookup pk = some (sigComm, feeAcctComm) ∧
        blockchainLoc = recordedLoc nullifierKv blockHeight (occurrences P msg aggregates) pk := by
  rw [List.mem_iff_getElem?]
  constructor
  · rintro ⟨k, hk⟩
    rw [newElements, getElem?_numbered, Option.map_eq_some_iff] at hk
    obtain ⟨⟨pk', sigComm', feeAcctComm'⟩, hkept, heq⟩ := hk
    cases heq
    obtain ⟨hnew, hlookup, rfl⟩ := getElem?_firstNew_eq_some_iff.mp hkept
    exact ⟨fun habs => hnew (Finmap.mem_keys.mpr habs), hlookup, rfl⟩
  · rintro ⟨hnew, hlookup, rfl⟩
    exact ⟨_, getElem?_newElements blockHeight hnew hlookup⟩

/-- The set `elements` and the map `next` are the record of a block on the map
    `nullifierKv`. -/
structure BlockRecord (P : Primitives A V) (msg : Message)
    (nullifierKv : HashMap PublicKey NullifierKvEntry) (blockHeight : UInt64)
    (aggregates : List AggregateNullifier) (elements : List ToSAccSetElement)
    (next : HashMap PublicKey NullifierKvEntry) : Prop where
  kept : ∀ pk ∈ nullifierKv, next.lookup pk = nullifierKv.lookup pk
  recorded : ∀ pk ∈ publishedKeys P msg aggregates, pk ∉ nullifierKv →
    ∃ sigComm feeAcctComm k, FirstOccurrence P msg aggregates pk sigComm feeAcctComm ∧
      elements[k]? = some (pk, sigComm, locationBytes (blockHeight.toNat * 2 ^ 24 + k),
        feeAcctComm) ∧
      next.lookup pk =
        some ⟨sigComm, locationBytes (blockHeight.toNat * 2 ^ 24 + k), feeAcctComm⟩
  nothing_else : ∀ pk ∈ next, pk ∈ nullifierKv ∨ pk ∈ publishedKeys P msg aggregates
  listed : ∀ pk sigComm blockchainLoc feeAcctComm,
    (pk, sigComm, blockchainLoc, feeAcctComm) ∈ elements ↔
      pk ∉ nullifierKv ∧ next.lookup pk = some ⟨sigComm, blockchainLoc, feeAcctComm⟩
  once : (elements.map Prod.fst).Nodup
  located : ∀ (k : Nat) (element : ToSAccSetElement), elements[k]? = some element →
    element.2.2.1 = locationBytes (blockHeight.toNat * 2 ^ 24 + k)
  ordered : (elements.map Prod.fst).Pairwise fun left right =>
    (publishedKeys P msg aggregates).idxOf left < (publishedKeys P msg aggregates).idxOf right

theorem blockRecord_newElements (P : Primitives A V) (msg : Message)
    (nullifierKv : HashMap PublicKey NullifierKvEntry) (blockHeight : UInt64)
    (aggregates : List AggregateNullifier) :
    BlockRecord P msg nullifierKv blockHeight aggregates
      (newElements P msg nullifierKv blockHeight aggregates)
      (insertAll nullifierKv
        ((newElements P msg nullifierKv blockHeight aggregates).map kvEntry)) where
  kept pk hpk := lookup_of_mem_nullifierKv hpk
  recorded pk hpk hnew := by
    obtain ⟨sigComm, feeAcctComm, hfirst⟩ := exists_firstOccurrence hpk
    have helement := getElem?_newElements blockHeight hnew hfirst.lookup
    exact ⟨sigComm, feeAcctComm, _, hfirst, helement,
      lookup_of_mem_newElements (List.mem_of_getElem? helement)⟩
  nothing_else pk hpk := mem_insertAll_newElements.mp hpk
  listed pk sigComm blockchainLoc feeAcctComm := by
    constructor
    · intro helement
      exact ⟨(key_of_mem_newElements helement).2, lookup_of_mem_newElements helement⟩
    · rintro ⟨hnew, hlookup⟩
      obtain ⟨element, helement, rfl, hentry⟩ := exists_newElement hnew hlookup
      obtain ⟨pk, sigComm', blockchainLoc', feeAcctComm'⟩ := element
      simp only [kvEntry, NullifierKvEntry.mk.injEq] at hentry
      obtain ⟨rfl, rfl, rfl⟩ := hentry
      exact helement
  once := nodup_keys_newElements
  located k element helement := by
    rw [newElements, getElem?_numbered, Option.map_eq_some_iff] at helement
    obtain ⟨occurrence, -, rfl⟩ := helement
    rfl
  ordered := by
    rw [newElements, map_fst_numbered, ← map_fst_occurrences]
    exact pairwise_idxOf_firstNew _ _

/-! ### The call -/

variable [DecidableEq V] {mgr : ToSAccM M V} {profile : Profile}

/-- Where the counter fits, `process_block` hands the new elements to the
    accumulator and stores what comes back. -/
theorem processBlock_eq (node : MixerNode B M)
    (hmsg : P.fromDigestSlice stateUpdateText = some msg)
    (hfits : blockHeight.toNat * 2 ^ 24 +
      (newElements P msg node.wallet.nullifierKv blockHeight aggregates).length < 2 ^ 64) :
    processBlock P mgr profile node blockHeight aggregates = (do
      let nullifierAccum ← mgr.appendSet profile node.nullifierAccum
        (newElements P msg node.wallet.nullifierKv blockHeight aggregates)
      .ok (.ok (), node.connect mgr blockHeight
        (newElements P msg node.wallet.nullifierKv blockHeight aggregates) nullifierAccum)) := by
  have hpow : (2 ^ 24 : UInt64).toNat = 2 ^ 24 := by decide
  have hsmall : blockHeight.toNat * 2 ^ 24 < 2 ^ 64 :=
    Nat.lt_of_le_of_lt (Nat.le_add_right _ _) hfits
  have hloc : (blockHeight * 2 ^ 24).toNat = blockHeight.toNat * 2 ^ 24 := by
    rw [UInt64.toNat_mul, hpow, Nat.mod_eq_of_lt hsmall]
  have hmul : mulU64 profile blockHeight (2 ^ 24) = .ok (blockHeight * 2 ^ 24) := by
    rw [mulU64_eq_ok, hpow]
    exact ⟨rfl, fun _ => hsmall⟩
  have hscan : aggregates.foldlM (scanAggregate P profile msg)
      ⟨node.wallet.nullifierKv, blockHeight * 2 ^ 24, []⟩ =
        .ok (BlockScan.recordAll ⟨node.wallet.nullifierKv, blockHeight * 2 ^ 24, []⟩
          (firstNew node.wallet.nullifierKv.keys (occurrences P msg aggregates))) := by
    rw [newElements, length_numbered] at hfits
    rw [foldlM_scanAggregate, foldlM_scanOccurrence_eq_ok]
    refine ⟨?_, rfl⟩
    intro _
    rw [hloc]
    exact hfits
  simp only [processBlock, hmsg, expect, ok_bind, hmul, hscan, BlockScan.recordAll, hloc,
    List.nil_append]
  rfl

/-- A block leaves the ledger, the coins and the accounts as they were. -/
theorem blockStep_frame {node next : MixerNode B M} {block : Block}
    (h : BlockStep P mgr profile node block next) :
    next.wallet.liabilities = node.wallet.liabilities ∧
      next.wallet.unspentCoins = node.wallet.unspentCoins ∧
      next.wallet.poolAccounts = node.wallet.poolAccounts := by
  obtain ⟨msg, nullifierAccum, -, -, rfl⟩ := blockStep_cases h
  unfold MixerNode.connect WalletState.recordNullifierAccum
  split <;> exact ⟨rfl, rfl, rfl⟩

/-- **The record.**  A block whose counter fits in a word hands the elements of its
    record to the accumulator and stores the map of its record; the rest of the wallet
    is as before, except for the list of accumulator values. -/
theorem processBlock_records (P : Primitives A V) (mgr : ToSAccM M V) (profile : Profile)
    (node : MixerNode B M) (blockHeight : UInt64) (aggregates : List AggregateNullifier)
    (msg : Message) (hmsg : P.fromDigestSlice stateUpdateText = some msg) :
    ∃ elements nullifierKv,
      BlockRecord P msg node.wallet.nullifierKv blockHeight aggregates elements nullifierKv ∧
      (blockHeight.toNat * 2 ^ 24 + elements.length < 2 ^ 64 →
        processBlock P mgr profile node blockHeight aggregates = (do
          let nullifierAccum ← mgr.appendSet profile node.nullifierAccum elements
          let wallet := { node.wallet with nullifierKv := nullifierKv }
          .ok (.ok (),
            { node with
              wallet := wallet.recordNullifierAccum (mgr.value nullifierAccum)
              nullifierAccum := nullifierAccum
              chainHeight := blockHeight }))) ∧
      ∀ next, BlockStep P mgr profile node (blockHeight, aggregates) next →
        next.wallet.nullifierKv = nullifierKv ∧
          next.wallet.liabilities = node.wallet.liabilities ∧
          next.wallet.unspentCoins = node.wallet.unspentCoins ∧
          next.wallet.poolAccounts = node.wallet.poolAccounts := by
  refine ⟨_, _, blockRecord_newElements P msg node.wallet.nullifierKv blockHeight aggregates,
    ?_, ?_⟩
  · intro hfits
    exact processBlock_eq node hmsg hfits
  · intro next hstep
    exact ⟨nullifierKv_blockStep hstep hmsg, blockStep_frame hstep⟩

/-- A block with an aggregate that publishes one key twice. -/
theorem repeatedKey_recorded : ∃ elements nullifierKv next,
    BlockRecord idealPrimitives ⟨zeroBytes 32⟩ sampleNode.wallet.nullifierKv 1
        [sampleAggregate [sampleKey, sampleKey]] elements nullifierKv ∧
      BlockStep idealPrimitives .ideal .debug sampleNode
        (1, [sampleAggregate [sampleKey, sampleKey]]) next ∧
      next.wallet.nullifierKv = nullifierKv ∧
      nullifierKv.lookup sampleKey =
        some ⟨⟨zeroBytes 32⟩, locationBytes (2 ^ 24), ⟨zeroBytes 32⟩⟩ := by
  obtain ⟨elements, nullifierKv, hrecord, -, hframe⟩ := processBlock_records idealPrimitives
    .ideal .debug sampleNode 1 [sampleAggregate [sampleKey, sampleKey]] ⟨zeroBytes 32⟩ rfl
  obtain ⟨next, hstep, hentry⟩ : ∃ next, BlockStep idealPrimitives .ideal .debug sampleNode
      (1, [sampleAggregate [sampleKey, sampleKey]]) next ∧
      next.wallet.nullifierKv.lookup sampleKey =
        some ⟨⟨zeroBytes 32⟩, locationBytes (2 ^ 24), ⟨zeroBytes 32⟩⟩ := ⟨_, rfl, rfl⟩
  have hsame := (hframe next hstep).1
  exact ⟨elements, nullifierKv, next, hrecord, hstep, hsame, hsame ▸ hentry⟩

end PartyMix
