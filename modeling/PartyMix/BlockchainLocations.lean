import PartyMix.DoubleSpend

/-!
# When blockchain locations are unique

A location is a 64-bit number, `height * 2^24` plus a counter, cut to its six high
bytes.  The cut drops the two low bytes, where the counter lives, so all keys that
one block records share a location unless it records 2^16 of them.  Locations are
therefore unique exactly in the runs whose blocks record at most one key each.
-/

namespace PartyMix

open FirstWins FixedBytes MachineWord Transition

variable {A V M : Type} [DecidableEq V] {B : PcdBackend A V} {P : Primitives A V}
  {mgr : ToSAccM M V} {profile : Profile}

/-! ### Which digits a location keeps -/

theorem locationBytes_eq_iff {x y : Nat} :
    locationBytes x = locationBytes y ↔ x / 2 ^ 16 % 2 ^ 48 = y / 2 ^ 16 % 2 ^ 48 := by
  have hcut (z : Nat) : locationBytes z = beBytes 6 (z / 2 ^ 16) :=
    Subtype.ext (take_beDigits 6 2 z)
  rw [hcut, hcut]
  exact beBytes_inj

theorem locationBytes_succ (height : Nat) :
    locationBytes (height * 2 ^ 24 + 1) = locationBytes (height * 2 ^ 24) := by
  rw [locationBytes_eq_iff]
  omega

theorem locationBytes_height_inj {left right : Nat} (hleft : left < 2 ^ 21)
    (hright : right < 2 ^ 21)
    (h : locationBytes (left * 2 ^ 24) = locationBytes (right * 2 ^ 24)) : left = right := by
  rw [locationBytes_eq_iff] at h
  omega

/-! ### The property and its condition -/

/-- The coin was finalized from the recorded nullifier `pk`, at its location. -/
inductive FinalizedFrom (P : Primitives A V)
    (nullifierKv : HashMap PublicKey NullifierKvEntry) (pk : PublicKey) (coin : Coin V) : Prop
  | payment {out : PaymentInitOutput A V} {wLoc : PaymentFinalizeLocalInput V}
      {state : AcctState A V} {coins : List (Coin V)} {entry : NullifierKvEntry} :
      paymentFinalize P out wLoc = some (state, coins) → coin ∈ coins →
        out.partialOutput.nullifierPk = pk → nullifierKv.lookup pk = some entry →
        wLoc.blockchainLoc = entry.blockchainLoc → FinalizedFrom P nullifierKv pk coin
  | fee {out : PaymentInitOutputFee V} {wLoc : PaymentFinalizeLocalInput V}
      {entry : NullifierKvEntry} :
      paymentFinalizeFee P out wLoc = some coin →
        out.partialOutput.nullifierPk = pk → nullifierKv.lookup pk = some entry →
        wLoc.blockchainLoc = entry.blockchainLoc → FinalizedFrom P nullifierKv pk coin

/-- Different keys recorded since `start` have different locations, and coins
    finalized from them have different on-chain ids. -/
def LocationsUnique (P : Primitives A V) (start nullifierKv : HashMap PublicKey NullifierKvEntry) :
    Prop :=
  ∀ pk₁ pk₂, pk₁ ≠ pk₂ → pk₁ ∉ start → pk₂ ∉ start →
    (∀ entry₁ entry₂, nullifierKv.lookup pk₁ = some entry₁ →
      nullifierKv.lookup pk₂ = some entry₂ → entry₁.blockchainLoc ≠ entry₂.blockchainLoc) ∧
    ∀ coin₁ coin₂ : Coin V, FinalizedFrom P nullifierKv pk₁ coin₁ →
      FinalizedFrom P nullifierKv pk₂ coin₂ → coin₁.onChainId ≠ coin₂.onChainId

/-- The aggregates of the block that verify publish at most one key that the map
    does not hold yet. -/
def OneNewKey (P : Primitives A V) (node : MixerNode B M) (block : Block) : Prop :=
  ∀ msg, P.fromDigestSlice stateUpdateText = some msg →
    ∀ pk₁ ∈ publishedKeys P msg block.2, ∀ pk₂ ∈ publishedKeys P msg block.2,
      pk₁ ∉ node.wallet.nullifierKv → pk₂ ∉ node.wallet.nullifierKv → pk₁ = pk₂

omit [DecidableEq V] in
theorem FinalizedFrom.entry {nullifierKv : HashMap PublicKey NullifierKvEntry}
    {pk : PublicKey} {coin : Coin V} (h : FinalizedFrom P nullifierKv pk coin) :
    ∃ entry, nullifierKv.lookup pk = some entry ∧ coin.blockchainLoc = entry.blockchainLoc := by
  cases h with
  | payment hfin hcoin _ hentry hloc =>
    obtain ⟨-, hresult⟩ := paymentFinalize_eq_some_iff.mp hfin
    obtain ⟨-, rfl⟩ := Prod.mk.inj hresult
    obtain ⟨essence, -, rfl⟩ := List.mem_map.mp hcoin
    exact ⟨_, hentry, hloc⟩
  | fee hfin _ hentry hloc =>
    obtain ⟨-, rfl⟩ := paymentFinalizeFee_eq_some_iff.mp hfin
    exact ⟨_, hentry, hloc⟩

omit [DecidableEq V] in
/-- On-chain ids start with the location, so locations are all that matters. -/
theorem locationsUnique_of_entries {start nullifierKv : HashMap PublicKey NullifierKvEntry}
    (h : ∀ pk₁ pk₂ entry₁ entry₂, pk₁ ≠ pk₂ → pk₁ ∉ start → pk₂ ∉ start →
      nullifierKv.lookup pk₁ = some entry₁ → nullifierKv.lookup pk₂ = some entry₂ →
        entry₁.blockchainLoc ≠ entry₂.blockchainLoc) :
    LocationsUnique P start nullifierKv := by
  intro pk₁ pk₂ hne hnew₁ hnew₂
  refine ⟨fun entry₁ entry₂ => h pk₁ pk₂ entry₁ entry₂ hne hnew₁ hnew₂, ?_⟩
  intro coin₁ coin₂ hcoin₁ hcoin₂ hid
  obtain ⟨entry₁, hentry₁, hloc₁⟩ := hcoin₁.entry
  obtain ⟨entry₂, hentry₂, hloc₂⟩ := hcoin₂.entry
  have hlocs : coin₁.blockchainLoc = coin₂.blockchainLoc := (append_inj hid).1
  apply h pk₁ pk₂ entry₁ entry₂ hne hnew₁ hnew₂ hentry₁ hentry₂
  rw [← hloc₁, ← hloc₂, hlocs]

/-! ### One block -/

omit [DecidableEq V] in
/-- The first two elements of a block have different keys and one location. -/
theorem newElements_cases (P : Primitives A V) (msg : Message)
    (nullifierKv : HashMap PublicKey NullifierKvEntry) (height : UInt64)
    (aggregates : List AggregateNullifier) :
    newElements P msg nullifierKv height aggregates = [] ∨
      (∃ element, newElements P msg nullifierKv height aggregates = [element] ∧
        element.2.2.1 = locationBytes (height.toNat * 2 ^ 24)) ∨
      ∃ first second rest,
        newElements P msg nullifierKv height aggregates = first :: second :: rest ∧
          first.1 ≠ second.1 ∧ first.2.2.1 = second.2.2.1 := by
  have hnodup : ((firstNew nullifierKv.keys (occurrences P msg aggregates)).map
      Prod.fst).Nodup := nodup_keys_firstNew _ _
  unfold newElements
  cases hkept : firstNew nullifierKv.keys (occurrences P msg aggregates) with
  | nil => exact Or.inl rfl
  | cons first rest =>
    cases rest with
    | nil => exact Or.inr (Or.inl ⟨_, rfl, rfl⟩)
    | cons second rest =>
      refine Or.inr (Or.inr ⟨_, _, _, rfl, ?_, (locationBytes_succ height.toNat).symm⟩)
      intro hsame
      rw [hkept, List.map_cons, List.map_cons, List.nodup_cons] at hnodup
      exact hnodup.1 (List.mem_cons.mpr (Or.inl hsame))

section Block

variable {node next : MixerNode B M} {block : Block}

/-- After a block with at most one new key, a recorded key is an old one or the
    new one, at the location of the height. -/
theorem recorded_cases (hone : OneNewKey P node block)
    (hstep : BlockStep P mgr profile node block next) {pk : PublicKey}
    {entry : NullifierKvEntry} (h : next.wallet.nullifierKv.lookup pk = some entry) :
    node.wallet.nullifierKv.lookup pk = some entry ∨
      (∃ msg, P.fromDigestSlice stateUpdateText = some msg ∧
        pk ∈ publishedKeys P msg block.2 ∧ pk ∉ node.wallet.nullifierKv) ∧
        entry.blockchainLoc = locationBytes (block.1.toNat * 2 ^ 24) := by
  obtain ⟨msg, nullifierAccum, hmsg, -, rfl⟩ := blockStep_cases hstep
  rw [nullifierKv_connect] at h
  by_cases hold : pk ∈ node.wallet.nullifierKv
  · rw [lookup_of_mem_nullifierKv hold] at h
    exact Or.inl h
  · obtain ⟨element, helement, rfl, rfl⟩ := exists_newElement hold h
    refine Or.inr ⟨⟨msg, hmsg, key_of_mem_newElements helement⟩, ?_⟩
    rcases newElements_cases P msg node.wallet.nullifierKv block.1 block.2 with
      hnil | ⟨only, honly, hloc⟩ | ⟨first, second, rest, hmany, hne, -⟩
    · -- the block adds nothing
      rw [hnil] at helement
      cases helement
    · -- the one new key has counter 0, so its location is that of the height
      rw [honly, List.mem_singleton] at helement
      rw [helement]
      exact hloc
    · -- two new keys, against the condition
      have hfirst : first ∈ newElements P msg node.wallet.nullifierKv block.1 block.2 := by
        simp [hmany]
      have hsecond : second ∈ newElements P msg node.wallet.nullifierKv block.1 block.2 := by
        simp [hmany]
      obtain ⟨hpub₁, hnew₁⟩ := key_of_mem_newElements hfirst
      obtain ⟨hpub₂, hnew₂⟩ := key_of_mem_newElements hsecond
      exact absurd (hone msg hmsg _ hpub₁ _ hpub₂ hnew₁ hnew₂) hne

/-- A block with two new keys records two keys at one location. -/
theorem oneNewKey_of_distinct {start : HashMap PublicKey NullifierKvEntry}
    (hstep : BlockStep P mgr profile node block next)
    (hstart : ∀ pk ∈ start, pk ∈ node.wallet.nullifierKv)
    (hunique : LocationsUnique P start next.wallet.nullifierKv) : OneNewKey P node block := by
  intro msg hmsg pk₁ hpub₁ pk₂ hpub₂ hnew₁ hnew₂
  by_contra hne
  rw [nullifierKv_blockStep hstep hmsg] at hunique
  have hmem₁ : pk₁ ∈ (newElements P msg node.wallet.nullifierKv block.1 block.2).map Prod.fst :=
    mem_keys_newElements.mpr ⟨hpub₁, hnew₁⟩
  have hmem₂ : pk₂ ∈ (newElements P msg node.wallet.nullifierKv block.1 block.2).map Prod.fst :=
    mem_keys_newElements.mpr ⟨hpub₂, hnew₂⟩
  rcases newElements_cases P msg node.wallet.nullifierKv block.1 block.2 with
    hnil | ⟨only, honly, -⟩ | ⟨first, second, rest, hmany, hkeys, hloc⟩
  · rw [hnil] at hmem₁
    cases hmem₁
  · -- one new element cannot have two keys
    rw [honly, List.map_singleton, List.mem_singleton] at hmem₁ hmem₂
    exact hne (hmem₁.trans hmem₂.symm)
  · -- the numbers of the first two new keys differ in the bytes that are cut off
    have hfirst : first ∈ newElements P msg node.wallet.nullifierKv block.1 block.2 := by
      simp [hmany]
    have hsecond : second ∈ newElements P msg node.wallet.nullifierKv block.1 block.2 := by
      simp [hmany]
    have hnew (element : ToSAccSetElement)
        (h : element ∈ newElements P msg node.wallet.nullifierKv block.1 block.2) :
        element.1 ∉ start := by
      intro habs
      exact (key_of_mem_newElements h).2 (hstart _ habs)
    exact (hunique _ _ hkeys (hnew first hfirst) (hnew second hsecond)).1 _ _
      (lookup_of_mem_newElements hfirst) (lookup_of_mem_newElements hsecond) hloc

end Block

/-! ### Runs of blocks -/

/-- Keys recorded since `start` sit at the locations of the run's heights, each at
    its own. -/
structure Located (start : HashMap PublicKey NullifierKvEntry) (blocks : List Block)
    (node : MixerNode B M) : Prop where
  atHeight : ∀ pk entry, pk ∉ start → node.wallet.nullifierKv.lookup pk = some entry →
    ∃ block ∈ blocks, entry.blockchainLoc = locationBytes (block.1.toNat * 2 ^ 24)
  distinct : ∀ pk₁ pk₂ entry₁ entry₂, pk₁ ≠ pk₂ → pk₁ ∉ start → pk₂ ∉ start →
    node.wallet.nullifierKv.lookup pk₁ = some entry₁ →
    node.wallet.nullifierKv.lookup pk₂ = some entry₂ →
      entry₁.blockchainLoc ≠ entry₂.blockchainLoc

/-- The heights are pairwise distinct and in the documented range. -/
def DistinctHeights (blocks : List Block) : Prop :=
  (blocks.map Prod.fst).Nodup ∧ ∀ block ∈ blocks, block.1.toNat < 2 ^ 21

theorem DistinctHeights.init {blocks : List Block} {block : Block}
    (h : DistinctHeights (blocks ++ [block])) : DistinctHeights blocks := by
  obtain ⟨hnodup, hrange⟩ := h
  rw [List.map_append] at hnodup
  refine ⟨hnodup.of_append_left, ?_⟩
  intro other hother
  exact hrange other (List.mem_append_left _ hother)

theorem DistinctHeights.location_ne {blocks : List Block} {block other : Block}
    (h : DistinctHeights (blocks ++ [block])) (hother : other ∈ blocks) :
    locationBytes (other.1.toNat * 2 ^ 24) ≠ locationBytes (block.1.toNat * 2 ^ 24) := by
  obtain ⟨hnodup, hrange⟩ := h
  intro hsame
  have hheight := locationBytes_height_inj (hrange other (List.mem_append_left _ hother))
    (hrange block (List.mem_append_right _ (List.mem_singleton_self _))) hsame
  rw [List.map_append, List.nodup_append] at hnodup
  exact hnodup.2.2 _ (List.mem_map_of_mem hother) _ (List.mem_singleton_self _)
    (UInt64.toNat_inj.mp hheight)

theorem located_blockStep {start : HashMap PublicKey NullifierKvEntry} {blocks : List Block}
    {node next : MixerNode B M} {block : Block} (hlocated : Located start blocks node)
    (hheights : DistinctHeights (blocks ++ [block])) (hone : OneNewKey P node block)
    (hstep : BlockStep P mgr profile node block next) : Located start (blocks ++ [block]) next := by
  constructor
  · intro pk entry hpk hentry
    rcases recorded_cases hone hstep hentry with hold | ⟨-, hloc⟩
    · obtain ⟨other, hother, hloc⟩ := hlocated.atHeight pk entry hpk hold
      exact ⟨other, List.mem_append_left _ hother, hloc⟩
    · exact ⟨block, List.mem_append_right _ (List.mem_singleton_self _), hloc⟩
  · intro pk₁ pk₂ entry₁ entry₂ hne hpk₁ hpk₂ hentry₁ hentry₂
    rcases recorded_cases hone hstep hentry₁ with hold₁ | ⟨⟨msg₁, hmsg₁, hpub₁, hnew₁⟩, hloc₁⟩
    · rcases recorded_cases hone hstep hentry₂ with hold₂ | ⟨-, hloc₂⟩
      · exact hlocated.distinct pk₁ pk₂ entry₁ entry₂ hne hpk₁ hpk₂ hold₁ hold₂
      · -- an old key and a new one: their blocks have different heights
        obtain ⟨other, hother, hloc₁⟩ := hlocated.atHeight pk₁ entry₁ hpk₁ hold₁
        rw [hloc₁, hloc₂]
        exact hheights.location_ne hother
    · rcases recorded_cases hone hstep hentry₂ with hold₂ | ⟨⟨msg₂, hmsg₂, hpub₂, hnew₂⟩, -⟩
      · -- a new key and an old one, the other way round
        obtain ⟨other, hother, hloc₂⟩ := hlocated.atHeight pk₂ entry₂ hpk₂ hold₂
        rw [hloc₁, hloc₂]
        exact (hheights.location_ne hother).symm
      · -- two new keys, against the condition
        rw [hmsg₁, Option.some.injEq] at hmsg₂
        subst hmsg₂
        exact absurd (hone msg₁ hmsg₁ pk₁ hpub₁ pk₂ hpub₂ hnew₁ hnew₂) hne

theorem located_run {start node : MixerNode B M} {blocks : List Block}
    (hmeets : Meets (BlockStep P mgr profile) (fun _ node block => OneNewKey P node block) start
      blocks node)
    (hheights : DistinctHeights blocks) : Located start.wallet.nullifierKv blocks node := by
  refine hmeets.invariant
    (I := fun blocks node => DistinctHeights blocks → Located start.wallet.nullifierKv blocks node)
    ?_ ?_ hheights
  · intro ls node block next hlocated hone hstep hheights
    exact located_blockStep (hlocated hheights.init) hheights hone hstep
  · intro _
    constructor
    · intro pk entry hpk hentry
      exact absurd (Finmap.mem_of_lookup_eq_some hentry) hpk
    · intro pk₁ pk₂ entry₁ entry₂ _ hpk₁ _ hentry₁
      exact absurd (Finmap.mem_of_lookup_eq_some hentry₁) hpk₁

theorem mem_nullifierKv_run {start node : MixerNode B M} {blocks : List Block}
    (hrun : Run (BlockStep P mgr profile) start blocks node) {pk : PublicKey}
    (hpk : pk ∈ start.wallet.nullifierKv) : pk ∈ node.wallet.nullifierKv := by
  obtain ⟨entry, hentry⟩ := Finmap.mem_iff.mp hpk
  exact Finmap.mem_of_lookup_eq_some (lookup_run hrun hentry)

theorem LocationsUnique.before {start : HashMap PublicKey NullifierKvEntry}
    {node next : MixerNode B M} {block : Block}
    (hunique : LocationsUnique P start next.wallet.nullifierKv)
    (hstep : BlockStep P mgr profile node block next) :
    LocationsUnique P start node.wallet.nullifierKv := by
  apply locationsUnique_of_entries
  intro pk₁ pk₂ entry₁ entry₂ hne hpk₁ hpk₂ hentry₁ hentry₂
  exact (hunique pk₁ pk₂ hne hpk₁ hpk₂).1 entry₁ entry₂ (lookup_blockStep hstep hentry₁)
    (lookup_blockStep hstep hentry₂)

/-- **Unique locations.**  In a run of blocks at distinct heights in the documented
    range, recorded keys have unique locations, and coins finalized from them
    different on-chain ids, exactly when no block records more than one key. -/
theorem locationsUnique_iff (P : Primitives A V) (mgr : ToSAccM M V) (profile : Profile)
    (config : MixerConfig) (wallet : WalletState A V) (blocks : List Block)
    (node : MixerNode B M)
    (hrun : Run (BlockStep P mgr profile) (MixerNode.new mgr config wallet) blocks node)
    (hheights : DistinctHeights blocks) :
    LocationsUnique P wallet.nullifierKv node.wallet.nullifierKv ↔
      Meets (BlockStep P mgr profile) (fun _ node block => OneNewKey P node block)
        (MixerNode.new mgr config wallet) blocks node := by
  constructor
  · intro hunique
    induction hrun with
    | start => exact Meets.start
    | snoc hinit hlast ih =>
      refine Meets.snoc (ih hheights.init (hunique.before hlast)) ?_ hlast
      exact oneNewKey_of_distinct hlast (fun pk hpk => mem_nullifierKv_run hinit hpk) hunique
  · intro hmeets
    exact locationsUnique_of_entries (located_run hmeets hheights).distinct

def otherKey : PublicKey := ⟨beBytes 32 2⟩

/-- One block at height 1 with two keys records both at one location. -/
theorem two_keys_share_location :
    ∃ node, Run (BlockStep idealPrimitives .ideal .debug) sampleNode
        [(1, [sampleAggregate [sampleKey, otherKey]])] node ∧
      DistinctHeights [(1, [sampleAggregate [sampleKey, otherKey]])] ∧
      ¬ LocationsUnique idealPrimitives sampleNode.wallet.nullifierKv
        node.wallet.nullifierKv := by
  refine ⟨_, Run.snoc Run.start rfl, by unfold DistinctHeights; decide, ?_⟩
  intro hunique
  exact (hunique sampleKey otherKey (by decide) (by decide) (by decide)).1 _ _ rfl rfl rfl

theorem sampleBlocks_locationsUnique :
    ∃ node, Run (BlockStep idealPrimitives .ideal .debug) sampleNode
        [(1, [sampleAggregate [sampleKey]]), (2, [sampleAggregate [otherKey]])] node ∧
      LocationsUnique idealPrimitives sampleNode.wallet.nullifierKv
        node.wallet.nullifierKv := by
  have hone (node : MixerNode (mockPcd : PcdBackend (Finset CoinIdOnChain) Nav) Nav)
      (height : UInt64) (pk : PublicKey) :
      OneNewKey idealPrimitives node (height, [sampleAggregate [pk]]) := by
    intro msg _ pk₁ hpub₁ pk₂ hpub₂ _ _
    have hpks : publishedKeys idealPrimitives msg [sampleAggregate [pk]] = [pk] := rfl
    rw [hpks, List.mem_singleton] at hpub₁ hpub₂
    rw [hpub₁, hpub₂]
  obtain ⟨middle, hfirst⟩ : ∃ node, BlockStep idealPrimitives .ideal .debug sampleNode
      (1, [sampleAggregate [sampleKey]]) node := ⟨_, rfl⟩
  obtain ⟨node, hsecond⟩ : ∃ node, BlockStep idealPrimitives .ideal .debug middle
      (2, [sampleAggregate [otherKey]]) node := by
    cases hfirst
    exact ⟨_, rfl⟩
  have hmeets : Meets (BlockStep idealPrimitives .ideal .debug)
      (fun _ node block => OneNewKey idealPrimitives node block) sampleNode
      [(1, [sampleAggregate [sampleKey]]), (2, [sampleAggregate [otherKey]])] node :=
    Meets.snoc (Meets.snoc Meets.start (hone _ 1 sampleKey) hfirst) (hone _ 2 otherKey) hsecond
  refine ⟨node, hmeets.run, ?_⟩
  refine (locationsUnique_iff idealPrimitives .ideal .debug _ _ _ node hmeets.run ?_).mpr hmeets
  unfold DistinctHeights
  decide

end PartyMix
