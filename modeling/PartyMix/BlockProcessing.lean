import PartyMix.Lib.FirstWins
import PartyMix.MixerNode

/-!
# What a processed block records

The double loop of `process_block` is one first-wins scan over the occurrences of
keys in the aggregates that verify.  `newElements` is what it records: the first
occurrence of every key that is not in the map yet, numbered in order from
`height * 2^24`.  `processBlock_eq_ok_iff` says exactly when a call returns and
which node it leaves; results about runs of blocks start from it.
-/

namespace PartyMix

open FirstWins FixedBytes MachineWord

variable {A V M : Type} {B : PcdBackend A V}

/-! ### Occurrences and their numbering -/

/-- The keys of the aggregates that verify, in order, with their commitments. -/
def occurrences (P : Primitives A V) (msg : Message) (aggregates : List AggregateNullifier) :
    List (PublicKey × SigCommitment × Commitment) :=
  (aggregates.filter (aggregateVerifies P msg)).flatMap fun aggregate =>
    aggregate.pks.zipIdx.map fun (pk, i) =>
      (pk, P.commitRetrieve aggregate.sig i, aggregate.feeAcctComm)

def publishedKeys (P : Primitives A V) (msg : Message) (aggregates : List AggregateNullifier) :
    List PublicKey :=
  (aggregates.filter (aggregateVerifies P msg)).flatMap AggregateNullifier.pks

theorem map_fst_occurrences (P : Primitives A V) (msg : Message)
    (aggregates : List AggregateNullifier) :
    (occurrences P msg aggregates).map Prod.fst = publishedKeys P msg aggregates := by
  unfold occurrences publishedKeys
  rw [List.map_flatMap]
  congr 1
  funext aggregate
  rw [List.map_map]
  exact List.zipIdx_map_fst 0 aggregate.pks

theorem occurrences_append (P : Primitives A V) (msg : Message)
    (before after : List AggregateNullifier) :
    occurrences P msg (before ++ after) = occurrences P msg before ++ occurrences P msg after := by
  simp [occurrences]

/-- The occurrence of a key at a position of an aggregate. -/
def keyOccurrence (P : Primitives A V) (aggregate : AggregateNullifier)
    (position : PublicKey × Nat) : PublicKey × SigCommitment × Commitment :=
  (position.1, P.commitRetrieve aggregate.sig position.2, aggregate.feeAcctComm)

theorem occurrences_cons {P : Primitives A V} {msg : Message} {aggregate : AggregateNullifier}
    (hverifies : aggregateVerifies P msg aggregate = true) (after : List AggregateNullifier) :
    occurrences P msg (aggregate :: after) =
      aggregate.pks.zipIdx.map (keyOccurrence P aggregate) ++ occurrences P msg after := by
  rw [occurrences, List.filter_cons_of_pos hverifies, List.flatMap_cons]
  rfl

/-- The elements recorded for a list of occurrences, with the counter from `loc`. -/
def numbered (loc : Nat) :
    List (PublicKey × SigCommitment × Commitment) → List ToSAccSetElement
  | [] => []
  | (pk, sigComm, feeAcctComm) :: rest =>
      (pk, sigComm, locationBytes loc, feeAcctComm) :: numbered (loc + 1) rest

@[simp] theorem length_numbered (loc : Nat)
    (recorded : List (PublicKey × SigCommitment × Commitment)) :
    (numbered loc recorded).length = recorded.length := by
  induction recorded generalizing loc with
  | nil => rfl
  | cons occurrence rest ih => simp [numbered, ih]

theorem map_fst_numbered (loc : Nat)
    (recorded : List (PublicKey × SigCommitment × Commitment)) :
    (numbered loc recorded).map Prod.fst = recorded.map Prod.fst := by
  induction recorded generalizing loc with
  | nil => rfl
  | cons occurrence rest ih => simp [numbered, ih]

/-- Locations are cut from eight bytes, so they depend on the counter modulo
    `2 ^ 64` only. -/
theorem locationBytes_congr {x y : Nat} (h : x % 2 ^ 64 = y % 2 ^ 64) :
    locationBytes x = locationBytes y := by
  have hdigits : beDigits 8 x = beDigits 8 y := beDigits_inj.mpr h
  exact Subtype.ext (congrArg (List.take 6) hdigits)

theorem numbered_congr {x y : Nat} (h : x % 2 ^ 64 = y % 2 ^ 64)
    (recorded : List (PublicKey × SigCommitment × Commitment)) :
    numbered x recorded = numbered y recorded := by
  induction recorded generalizing x y with
  | nil => rfl
  | cons occurrence rest ih =>
    rw [numbered, numbered, locationBytes_congr h, ih (x := x + 1) (y := y + 1) (by omega)]

def kvEntry (element : ToSAccSetElement) : PublicKey × NullifierKvEntry :=
  (element.1, ⟨element.2.1, element.2.2.1, element.2.2.2⟩)

theorem map_fst_kvEntry (elements : List ToSAccSetElement) :
    (elements.map kvEntry).map Prod.fst = elements.map Prod.fst := by
  rw [List.map_map]
  rfl

/-! ### The scan -/

def BlockScan.record (scan : BlockScan) :
    PublicKey × SigCommitment × Commitment → BlockScan
  | (pk, sigComm, feeAcctComm) =>
    { nullifierKv :=
        scan.nullifierKv.insert pk ⟨sigComm, locationBytes scan.loc.toNat, feeAcctComm⟩
      loc := scan.loc + 1
      blockNullifiers :=
        scan.blockNullifiers ++ [(pk, sigComm, locationBytes scan.loc.toNat, feeAcctComm)] }

/-- `scanKey`, for an occurrence whose commitment has been looked up. -/
def scanOccurrence (profile : Profile) (scan : BlockScan)
    (occurrence : PublicKey × SigCommitment × Commitment) : Exec BlockScan :=
  if occurrence.1 ∈ scan.nullifierKv then
    .ok scan
  else do
    let _ ← addU64 profile scan.loc 1
    .ok (scan.record occurrence)

theorem scanKey_eq (P : Primitives A V) (profile : Profile) (aggregate : AggregateNullifier)
    (scan : BlockScan) (pk : PublicKey) (i : Nat) :
    scanKey P profile aggregate scan (pk, i) =
      scanOccurrence profile scan
        (pk, P.commitRetrieve aggregate.sig i, aggregate.feeAcctComm) := by
  by_cases hknown : pk ∈ scan.nullifierKv
  · simp only [scanKey, scanOccurrence, if_pos hknown]
  · simp only [scanKey, scanOccurrence, if_neg hknown]
    cases hadd : addU64 profile scan.loc 1 with
    | error panic => rfl
    | ok loc =>
      obtain ⟨rfl, -⟩ := addU64_eq_ok.mp hadd
      rfl

theorem foldlM_scanAggregate (P : Primitives A V) (profile : Profile) (msg : Message)
    (aggregates : List AggregateNullifier) (scan : BlockScan) :
    aggregates.foldlM (scanAggregate P profile msg) scan =
      (occurrences P msg aggregates).foldlM (scanOccurrence profile) scan := by
  unfold occurrences
  rw [foldlM_flatMap]
  induction aggregates generalizing scan with
  | nil => rfl
  | cons aggregate rest ih =>
    rw [List.foldlM_cons]
    cases hverifies : aggregateVerifies P msg aggregate with
    | false =>
      -- an aggregate that fails verification is skipped by the loop and has no occurrences
      rw [List.filter_cons_of_neg (by simp [hverifies]), ← ih, scanAggregate, hverifies]
      rfl
    | true =>
      -- the inner loop over the keys is the scan of their occurrences
      have hkeys : scanAggregate P profile msg scan aggregate =
          aggregate.pks.zipIdx.foldlM (fun next (pk, i) => scanOccurrence profile next
            (pk, P.commitRetrieve aggregate.sig i, aggregate.feeAcctComm)) scan := by
        simp only [scanAggregate, hverifies, Bool.not_true, Bool.false_eq_true, if_false]
        congr
        funext next ⟨pk, i⟩
        exact scanKey_eq P profile aggregate next pk i
      rw [List.filter_cons_of_pos hverifies, List.foldlM_cons, List.foldlM_map, hkeys]
      congr
      funext next
      exact ih next

def BlockScan.recordAll (scan : BlockScan)
    (kept : List (PublicKey × SigCommitment × Commitment)) : BlockScan where
  nullifierKv := insertAll scan.nullifierKv ((numbered scan.loc.toNat kept).map kvEntry)
  loc := scan.loc + UInt64.ofNat kept.length
  blockNullifiers := scan.blockNullifiers ++ numbered scan.loc.toNat kept

theorem recordAll_cons (scan : BlockScan)
    (occurrence : PublicKey × SigCommitment × Commitment)
    (kept : List (PublicKey × SigCommitment × Commitment)) :
    scan.recordAll (occurrence :: kept) = (scan.record occurrence).recordAll kept := by
  have hnumbered : numbered (scan.loc + 1).toNat kept = numbered (scan.loc.toNat + 1) kept :=
    numbered_congr (by rw [UInt64.toNat_add, UInt64.toNat_one, Nat.mod_mod]) kept
  have hloc : scan.loc + UInt64.ofNat (kept.length + 1) =
      scan.loc + 1 + UInt64.ofNat kept.length := by
    rw [UInt64.ofNat_add, UInt64.add_assoc, UInt64.add_comm 1]
    rfl
  simp only [BlockScan.recordAll, BlockScan.record, hnumbered, List.length_cons, hloc, numbered,
    List.map_cons, insertAll_cons, kvEntry, List.append_assoc, List.singleton_append]

theorem scanOccurrence_of_mem {profile : Profile} {scan : BlockScan}
    {occurrence : PublicKey × SigCommitment × Commitment}
    (hknown : occurrence.1 ∈ scan.nullifierKv) :
    scanOccurrence profile scan occurrence = .ok scan :=
  if_pos hknown

theorem scanOccurrence_eq_ok_of_notMem {profile : Profile} {scan next : BlockScan}
    {occurrence : PublicKey × SigCommitment × Commitment}
    (hnew : occurrence.1 ∉ scan.nullifierKv) :
    scanOccurrence profile scan occurrence = .ok next ↔
      (profile = .debug → scan.loc.toNat + 1 < 2 ^ 64) ∧ next = scan.record occurrence := by
  rw [scanOccurrence, if_neg hnew]
  simp only [bind_eq_ok, addU64_eq_ok, UInt64.toNat_one, Except.ok.injEq]
  constructor
  · rintro ⟨loc, ⟨-, hadd⟩, rfl⟩
    exact ⟨hadd, rfl⟩
  · rintro ⟨hadd, rfl⟩
    exact ⟨_, ⟨rfl, hadd⟩, rfl⟩

/-- **The scan.**  It records the first occurrence of every new key, numbered from
    the counter; with overflow checks the counter must not pass `2 ^ 64`. -/
theorem foldlM_scanOccurrence_eq_ok {profile : Profile}
    {occs : List (PublicKey × SigCommitment × Commitment)} {scan result : BlockScan} :
    occs.foldlM (scanOccurrence profile) scan = .ok result ↔
      (profile = .debug →
          scan.loc.toNat + (firstNew scan.nullifierKv.keys occs).length < 2 ^ 64) ∧
        result = scan.recordAll (firstNew scan.nullifierKv.keys occs) := by
  induction occs generalizing scan with
  | nil =>
    have hlt := scan.loc.toNat_lt
    rw [List.foldlM_nil, pure_eq_ok, Except.ok.injEq]
    simp [firstNew, BlockScan.recordAll, numbered, hlt, @eq_comm _ result]
  | cons occurrence rest ih =>
    rw [List.foldlM_cons]
    by_cases hknown : occurrence.1 ∈ scan.nullifierKv
    · -- a key of the map is passed over and draws no number
      rw [firstNew_cons_of_mem (Finmap.mem_keys.mpr hknown), scanOccurrence_of_mem hknown, ok_bind]
      exact ih
    · -- a new key is recorded, and the counter moves by one; a debug build checks that step, which
      -- bounds the whole count together with the steps after it
      have hnew : occurrence.1 ∉ scan.nullifierKv.keys := by
        intro habs
        exact hknown (Finmap.mem_keys.mp habs)
      have hkeys : (scan.record occurrence).nullifierKv.keys =
          insert occurrence.1 scan.nullifierKv.keys := keys_insert _ _ _
      have hloc : (scan.record occurrence).loc.toNat = (scan.loc.toNat + 1) % 2 ^ 64 :=
        UInt64.toNat_add _ _
      rw [firstNew_cons_of_notMem hnew, recordAll_cons, bind_eq_ok, List.length_cons]
      constructor
      · rintro ⟨next, hnext, hfold⟩
        obtain ⟨hadd, rfl⟩ := (scanOccurrence_eq_ok_of_notMem hknown).mp hnext
        rw [ih, hkeys, hloc] at hfold
        refine ⟨?_, hfold.2⟩
        intro hdebug
        have hbound := hfold.1 hdebug
        have hone := hadd hdebug
        omega
      · rintro ⟨hfits, hresult⟩
        refine ⟨_, (scanOccurrence_eq_ok_of_notMem hknown).mpr ⟨?_, rfl⟩, ?_⟩
        · intro hdebug
          have hbound := hfits hdebug
          omega
        · rw [ih, hkeys, hloc]
          refine ⟨?_, hresult⟩
          intro hdebug
          have hbound := hfits hdebug
          omega

/-! ### `process_block` -/

def newElements (P : Primitives A V) (msg : Message)
    (nullifierKv : HashMap PublicKey NullifierKvEntry) (blockHeight : UInt64)
    (aggregates : List AggregateNullifier) : List ToSAccSetElement :=
  numbered (blockHeight.toNat * 2 ^ 24)
    (firstNew nullifierKv.keys (occurrences P msg aggregates))

/-- The node after a block that adds `elements` and leaves the accumulator at
    `nullifierAccum`. -/
def MixerNode.connect [DecidableEq V] (mgr : ToSAccM M V) (node : MixerNode B M)
    (blockHeight : UInt64) (elements : List ToSAccSetElement) (nullifierAccum : M) :
    MixerNode B M :=
  { node with
    wallet :=
      { node.wallet with
        nullifierKv := insertAll node.wallet.nullifierKv (elements.map kvEntry)
      }.recordNullifierAccum (mgr.value nullifierAccum)
    nullifierAccum := nullifierAccum
    chainHeight := blockHeight }

/-- **`process_block`.**  It returns exactly when the fixed message is valid, the
    counter and the accumulator do not overflow, and then it records the new
    elements of the block. -/
theorem processBlock_eq_ok_iff [DecidableEq V] {P : Primitives A V} {mgr : ToSAccM M V}
    {profile : Profile} {node : MixerNode B M} {blockHeight : UInt64}
    {aggregates : List AggregateNullifier} {result : Except NodeError Unit × MixerNode B M} :
    processBlock P mgr profile node blockHeight aggregates = .ok result ↔
      ∃ msg nullifierAccum, P.fromDigestSlice stateUpdateText = some msg ∧
        (profile = .debug → blockHeight.toNat * 2 ^ 24 +
          (newElements P msg node.wallet.nullifierKv blockHeight aggregates).length < 2 ^ 64) ∧
        mgr.appendSet profile node.nullifierAccum
          (newElements P msg node.wallet.nullifierKv blockHeight aggregates) =
            .ok nullifierAccum ∧
        result = (.ok (), node.connect mgr blockHeight
          (newElements P msg node.wallet.nullifierKv blockHeight aggregates) nullifierAccum) := by
  have hpow : (2 ^ 24 : UInt64).toNat = 2 ^ 24 := by decide
  have hmul : (blockHeight * 2 ^ 24).toNat = blockHeight.toNat * 2 ^ 24 % 2 ^ 64 :=
    UInt64.toNat_mul _ _
  have hnumbered (kept : List (PublicKey × SigCommitment × Commitment)) :
      numbered (blockHeight * 2 ^ 24).toNat kept = numbered (blockHeight.toNat * 2 ^ 24) kept :=
    numbered_congr (by rw [hmul, Nat.mod_mod]) kept
  simp only [processBlock, bind_eq_ok, expect_eq_ok, mulU64_eq_ok, hpow, foldlM_scanAggregate,
    foldlM_scanOccurrence_eq_ok, Except.ok.injEq]
  constructor
  · -- a debug build has checked the product, so its start of the count is exact
    rintro ⟨msg, hmsg, _, ⟨rfl, hheight⟩, _, ⟨hfits, rfl⟩, nullifierAccum, happend, rfl⟩
    simp only [BlockScan.recordAll, hnumbered, List.nil_append] at happend ⊢
    refine ⟨msg, nullifierAccum, hmsg, ?_, happend, rfl⟩
    intro hdebug
    have hbound := hfits hdebug
    have hsmall := hheight hdebug
    rw [hmul] at hbound
    rw [newElements, length_numbered]
    rw [Nat.mod_eq_of_lt hsmall] at hbound
    exact hbound
  · -- the bound on the last number covers the product and every step of the counter
    rintro ⟨msg, nullifierAccum, hmsg, hfits, happend, rfl⟩
    simp only [newElements, length_numbered] at hfits
    refine ⟨msg, hmsg, _, ⟨rfl, ?_⟩, _, ⟨?_, rfl⟩, nullifierAccum, ?_, ?_⟩
    · intro hdebug
      exact Nat.lt_of_le_of_lt (Nat.le_add_right _ _) (hfits hdebug)
    · intro hdebug
      rw [hmul]
      exact Nat.lt_of_le_of_lt (Nat.add_le_add_right (Nat.mod_le _ _) _) (hfits hdebug)
    · simp only [BlockScan.recordAll, hnumbered, List.nil_append]
      exact happend
    · simp only [BlockScan.recordAll, hnumbered]
      rfl

@[simp] theorem nullifierKv_connect [DecidableEq V] (mgr : ToSAccM M V) (node : MixerNode B M)
    (blockHeight : UInt64) (elements : List ToSAccSetElement) (nullifierAccum : M) :
    (node.connect mgr blockHeight elements nullifierAccum).wallet.nullifierKv =
      insertAll node.wallet.nullifierKv (elements.map kvEntry) :=
  WalletState.nullifierKv_recordNullifierAccum _ _

/-! ### The recorded elements -/

section Elements

variable {P : Primitives A V} {msg : Message}
  {nullifierKv : HashMap PublicKey NullifierKvEntry} {blockHeight : UInt64}
  {aggregates : List AggregateNullifier}

theorem mem_keys_newElements {pk : PublicKey} :
    pk ∈ (newElements P msg nullifierKv blockHeight aggregates).map Prod.fst ↔
      pk ∈ publishedKeys P msg aggregates ∧ pk ∉ nullifierKv := by
  rw [newElements, map_fst_numbered, mem_keys_firstNew, map_fst_occurrences, Finmap.mem_keys]

theorem key_of_mem_newElements {element : ToSAccSetElement}
    (h : element ∈ newElements P msg nullifierKv blockHeight aggregates) :
    element.1 ∈ publishedKeys P msg aggregates ∧ element.1 ∉ nullifierKv :=
  mem_keys_newElements.mp (List.mem_map_of_mem h)

theorem nodup_keys_newElements :
    ((newElements P msg nullifierKv blockHeight aggregates).map Prod.fst).Nodup := by
  rw [newElements, map_fst_numbered]
  exact nodup_keys_firstNew _ _

theorem lookup_of_mem_newElements {element : ToSAccSetElement}
    (h : element ∈ newElements P msg nullifierKv blockHeight aggregates) :
    (insertAll nullifierKv ((newElements P msg nullifierKv blockHeight aggregates).map
      kvEntry)).lookup element.1 = some (kvEntry element).2 := by
  refine lookup_insertAll_of_mem ?_ (List.mem_map_of_mem h)
  rw [map_fst_kvEntry]
  exact nodup_keys_newElements

theorem lookup_of_mem_nullifierKv {pk : PublicKey} (h : pk ∈ nullifierKv) :
    (insertAll nullifierKv ((newElements P msg nullifierKv blockHeight aggregates).map
      kvEntry)).lookup pk = nullifierKv.lookup pk := by
  apply lookup_insertAll_of_notMem
  rw [map_fst_kvEntry, mem_keys_newElements]
  rintro ⟨-, hnew⟩
  exact hnew h

theorem mem_insertAll_newElements {pk : PublicKey} :
    pk ∈ insertAll nullifierKv ((newElements P msg nullifierKv blockHeight aggregates).map
        kvEntry) ↔ pk ∈ nullifierKv ∨ pk ∈ publishedKeys P msg aggregates := by
  rw [← Finmap.mem_keys, keys_insertAll, map_fst_kvEntry, Finset.mem_union, Finmap.mem_keys,
    List.mem_toFinset, mem_keys_newElements]
  constructor
  · rintro (hold | ⟨hpublished, -⟩)
    · exact Or.inl hold
    · exact Or.inr hpublished
  · rintro (hold | hpublished)
    · exact Or.inl hold
    · by_cases hknown : pk ∈ nullifierKv
      · exact Or.inl hknown
      · exact Or.inr ⟨hpublished, hknown⟩

theorem exists_newElement {pk : PublicKey} {entry : NullifierKvEntry} (hnew : pk ∉ nullifierKv)
    (h : (insertAll nullifierKv ((newElements P msg nullifierKv blockHeight aggregates).map
      kvEntry)).lookup pk = some entry) :
    ∃ element ∈ newElements P msg nullifierKv blockHeight aggregates,
      element.1 = pk ∧ (kvEntry element).2 = entry := by
  have hpublished : pk ∈ publishedKeys P msg aggregates := by
    rcases mem_insertAll_newElements.mp (Finmap.mem_of_lookup_eq_some h) with hold | hpublished
    · exact absurd hold hnew
    · exact hpublished
  obtain ⟨element, helement, rfl⟩ :=
    List.mem_map.mp (mem_keys_newElements.mpr ⟨hpublished, hnew⟩)
  rw [lookup_of_mem_newElements helement, Option.some.injEq] at h
  exact ⟨element, helement, rfl, h⟩

end Elements

end PartyMix
