import PartyMix.BlockRecord
import PartyMix.ReorgMap

/-!
# The index of a whole run

A node keeps two indexes of the chain, and each call changes them by what one block
adds.  Over a whole run both have a closed form that mentions no node: a key is in the
map exactly when some block of the run publishes it, with the entry of its first
publication, and the accumulator holds, for each block that is still connected, the
keys that were published there for the first time.  Blocks that a reorg disconnected
count as earlier publications for both.
-/

namespace PartyMix

open FirstWins FixedBytes MachineWord Transition

variable {A V M : Type} {B : PcdBackend A V} {P : Primitives A V} {mgr : ToSAccM M V}
  {profile : Profile} {msg : Message}

/-! ### What a run publishes -/

/-- The blocks a run connected, and those it left connected, each of these with all
    the blocks connected before it. -/
structure ChainLog where
  connected : List Block
  surviving : List (List Block × Block)

def ChainLog.after (log : ChainLog) : NodeEvent V → ChainLog
  | .connected block _ =>
    ⟨log.connected ++ [block], log.surviving ++ [(log.connected, block)]⟩
  | .disconnected blocks =>
    ⟨log.connected, log.surviving.take (log.surviving.length - blocks.toNat)⟩

def chainLog (events : List (NodeEvent V)) : ChainLog :=
  events.foldl ChainLog.after ⟨[], []⟩

@[simp] theorem chainLog_snoc (events : List (NodeEvent V)) (event : NodeEvent V) :
    chainLog (events ++ [event]) = (chainLog events).after event := by
  simp [chainLog]

def chainKeys (P : Primitives A V) (msg : Message) (blocks : List Block) : List PublicKey :=
  blocks.flatMap fun block => publishedKeys P msg block.2

theorem chainKeys_snoc (P : Primitives A V) (msg : Message) (blocks : List Block)
    (block : Block) :
    chainKeys P msg (blocks ++ [block]) =
      chainKeys P msg blocks ++ publishedKeys P msg block.2 := by
  simp [chainKeys]

/-- The keys a block publishes ahead of `pk` that no earlier block published. -/
def newKeysAhead (P : Primitives A V) (msg : Message) (before : List Block) (block : Block)
    (pk : PublicKey) : Finset PublicKey :=
  ((publishedKeys P msg block.2).takeWhile fun other => decide (other ≠ pk)).toFinset \
    (chainKeys P msg before).toFinset

/-- The block publishes the key for the first time after the blocks `before`, and this
    is the entry of its first occurrence there. -/
structure FirstPublished (P : Primitives A V) (msg : Message) (before : List Block)
    (block : Block) (pk : PublicKey) (entry : NullifierKvEntry) : Prop where
  unpublished : pk ∉ chainKeys P msg before
  first : FirstOccurrence P msg block.2 pk entry.sigComm entry.feeAcctComm
  located : entry.blockchainLoc =
    locationBytes (block.1.toNat * 2 ^ 24 + (newKeysAhead P msg before block pk).card)

/-- Some block of the list publishes the key for the first time, with this entry. -/
def ChainEntry (P : Primitives A V) (msg : Message) (blocks : List Block) (pk : PublicKey)
    (entry : NullifierKvEntry) : Prop :=
  ∃ before block after, blocks = before ++ block :: after ∧
    FirstPublished P msg before block pk entry

theorem chainEntry_snoc {blocks : List Block} {block : Block} {pk : PublicKey}
    {entry : NullifierKvEntry} :
    ChainEntry P msg (blocks ++ [block]) pk entry ↔
      ChainEntry P msg blocks pk entry ∨ FirstPublished P msg blocks block pk entry := by
  constructor
  · rintro ⟨before, other, after, hsplit, hfirst⟩
    rcases List.eq_nil_or_concat after with rfl | ⟨rest, last, rfl⟩
    · -- the entry is of the last block
      obtain ⟨rfl, hlast⟩ := List.append_inj' hsplit rfl
      obtain rfl := List.singleton_inj.mp hlast
      exact Or.inr hfirst
    · rw [List.concat_eq_append, ← List.cons_append, ← List.append_assoc] at hsplit
      obtain ⟨rfl, -⟩ := List.append_inj' hsplit rfl
      exact Or.inl ⟨before, other, rest, rfl, hfirst⟩
  · rintro (⟨before, other, after, rfl, hfirst⟩ | hfirst)
    · exact ⟨before, other, after ++ [block], by simp, hfirst⟩
    · exact ⟨blocks, block, [], rfl, hfirst⟩

/-! ### One block -/

theorem keys_eq_chainKeys {nullifierKv : HashMap PublicKey NullifierKvEntry}
    {before : List Block} (hkeys : ∀ pk, pk ∈ nullifierKv ↔ pk ∈ chainKeys P msg before) :
    nullifierKv.keys = (chainKeys P msg before).toFinset := by
  ext other
  rw [Finmap.mem_keys, List.mem_toFinset, hkeys]

theorem recordedLoc_eq {nullifierKv : HashMap PublicKey NullifierKvEntry} {before : List Block}
    (hkeys : ∀ pk, pk ∈ nullifierKv ↔ pk ∈ chainKeys P msg before) (block : Block)
    (pk : PublicKey) :
    recordedLoc nullifierKv block.1 (occurrences P msg block.2) pk =
      locationBytes (block.1.toNat * 2 ^ 24 + (newKeysAhead P msg before block pk).card) := by
  rw [recordedLoc, newAhead, map_fst_occurrences, keys_eq_chainKeys hkeys, newKeysAhead]

/-- **One block.**  On a map of the keys published so far, it records exactly the keys
    it publishes for the first time. -/
theorem mem_newElements_iff {nullifierKv : HashMap PublicKey NullifierKvEntry}
    {before : List Block} (hkeys : ∀ pk, pk ∈ nullifierKv ↔ pk ∈ chainKeys P msg before)
    {block : Block} {pk : PublicKey} {sigComm : SigCommitment}
    {blockchainLoc : BlockchainLocation} {feeAcctComm : Commitment} :
    (pk, sigComm, blockchainLoc, feeAcctComm) ∈
        newElements P msg nullifierKv block.1 block.2 ↔
      FirstPublished P msg before block pk ⟨sigComm, blockchainLoc, feeAcctComm⟩ := by
  rw [mem_newElements_iff_lookup, hkeys, ← firstOccurrence_iff, recordedLoc_eq hkeys]
  constructor
  · rintro ⟨hunpublished, hfirst, hloc⟩
    exact ⟨hunpublished, hfirst, hloc⟩
  · rintro ⟨hunpublished, hfirst, hloc⟩
    exact ⟨hunpublished, hfirst, hloc⟩

/-! ### Runs -/

/-- The map holds the first publications of the connected blocks and nothing else. -/
structure MapIndexes (P : Primitives A V) (msg : Message) (log : ChainLog)
    (node : MixerNode B M) : Prop where
  keys : ∀ pk, pk ∈ node.wallet.nullifierKv ↔ pk ∈ chainKeys P msg log.connected
  entries : ∀ pk entry, node.wallet.nullifierKv.lookup pk = some entry ↔
    ChainEntry P msg log.connected pk entry

variable [DecidableEq V]

theorem mapIndexes_blockStep {log : ChainLog} {node next : MixerNode B M} {block : Block}
    (hindexes : MapIndexes P msg log node)
    (hmsg : P.fromDigestSlice stateUpdateText = some msg)
    (h : BlockStep P mgr profile node block next) (nav : V) :
    MapIndexes P msg (log.after (.connected block nav)) next := by
  have hkv := nullifierKv_blockStep h hmsg
  refine ⟨?_, ?_⟩
  · intro pk
    rw [hkv, mem_insertAll_newElements, hindexes.keys, ChainLog.after, chainKeys_snoc,
      List.mem_append]
  · intro pk entry
    rw [ChainLog.after, chainEntry_snoc, ← hindexes.entries, hkv]
    by_cases hknown : pk ∈ node.wallet.nullifierKv
    · -- a known key keeps its entry, and the block does not publish it first
      rw [lookup_of_mem_nullifierKv hknown]
      constructor
      · exact Or.inl
      · rintro (hold | hfirst)
        · exact hold
        · exact absurd ((hindexes.keys pk).mp hknown) hfirst.unpublished
    · constructor
      · intro hlookup
        obtain ⟨element, helement, rfl, rfl⟩ := exists_newElement hknown hlookup
        exact Or.inr ((mem_newElements_iff hindexes.keys).mp helement)
      · rintro (hold | hfirst)
        · exact absurd (Finmap.mem_of_lookup_eq_some hold) hknown
        · exact lookup_of_mem_newElements ((mem_newElements_iff hindexes.keys).mpr hfirst)

theorem mapIndexes_nodeStep {log : ChainLog} {node next : MixerNode B M} {event : NodeEvent V}
    (hindexes : MapIndexes P msg log node)
    (hmsg : P.fromDigestSlice stateUpdateText = some msg)
    (h : NodeStep P mgr profile node event next) :
    MapIndexes P msg (log.after event) next := by
  cases event with
  | connected block nav => exact mapIndexes_blockStep hindexes hmsg h.1 nav
  | disconnected blocks =>
    obtain ⟨-, rfl⟩ := handleReorg_eq_ok_iff.mp h
    refine ⟨?_, ?_⟩ <;>
      simp only [WalletState.nullifierKv_trimNullifierHistory, ChainLog.after]
    · exact hindexes.keys
    · exact hindexes.entries

theorem mapIndexes_run {config : MixerConfig} {wallet : WalletState A V}
    (hempty : wallet.nullifierKv = ∅) (hmsg : P.fromDigestSlice stateUpdateText = some msg)
    {events : List (NodeEvent V)} {node : MixerNode B M}
    (hrun : Run (NodeStep P mgr profile) (MixerNode.new mgr config wallet) events node) :
    MapIndexes P msg (chainLog events) node := by
  induction hrun with
  | start =>
    refine ⟨?_, ?_⟩
    · intro pk
      simp [MixerNode.new, hempty, chainLog, chainKeys, Finmap.notMem_empty]
    · intro pk entry
      simp [MixerNode.new, hempty, chainLog, ChainEntry]
  | snoc _ hlast ih =>
    rw [chainLog_snoc]
    exact mapIndexes_nodeStep ih hmsg hlast

/-! ### The accumulator -/

/-- The set holds the first publications of the block. -/
def SetIndexes (P : Primitives A V) (msg : Message) (set : Finset ToSAccSetElement)
    (record : List Block × Block) : Prop :=
  ∀ pk sigComm blockchainLoc feeAcctComm, (pk, sigComm, blockchainLoc, feeAcctComm) ∈ set ↔
    FirstPublished P msg record.1 record.2 pk ⟨sigComm, blockchainLoc, feeAcctComm⟩

/-- The manager keeps the appended sets, `sets` reads them off its state, and a removal
    takes the last one away. -/
structure KeepsSets (mgr : ToSAccM M V) (profile : Profile)
    (sets : M → List (Finset ToSAccSetElement)) : Prop where
  new : sets mgr.new = []
  appendSet : ∀ state set next, mgr.appendSet profile state set = .ok next →
    sets next = sets state ++ [set.toFinset]
  removeSet : ∀ state, sets (mgr.removeSet state) = (sets state).dropLast

omit [DecidableEq V] in
theorem KeepsSets.iterate_removeSet {sets : M → List (Finset ToSAccSetElement)}
    (hkeeps : KeepsSets mgr profile sets) (n : Nat) (state : M) :
    sets (mgr.removeSet^[n] state) = (sets state).take ((sets state).length - n) := by
  induction n with
  | zero => simp
  | succ n ih =>
    rw [Function.iterate_succ_apply', hkeeps.removeSet, ih, List.dropLast_eq_take,
      List.length_take, List.take_take]
    congr 1
    omega

theorem setsIndex_nodeStep {sets : M → List (Finset ToSAccSetElement)}
    (hkeeps : KeepsSets mgr profile sets) {log : ChainLog} {node next : MixerNode B M}
    {event : NodeEvent V} (hindexes : MapIndexes P msg log node)
    (hsets : List.Forall₂ (SetIndexes P msg) (sets node.nullifierAccum) log.surviving)
    (hmsg : P.fromDigestSlice stateUpdateText = some msg)
    (h : NodeStep P mgr profile node event next) :
    List.Forall₂ (SetIndexes P msg) (sets next.nullifierAccum) (log.after event).surviving := by
  cases event with
  | connected block nav =>
    obtain ⟨msg', nullifierAccum, hmsg', happend, rfl⟩ := blockStep_cases h.1
    rw [hmsg, Option.some.injEq] at hmsg'
    subst hmsg'
    rw [MixerNode.connect, hkeeps.appendSet _ _ _ happend]
    apply List.rel_append hsets
    refine List.Forall₂.cons ?_ List.Forall₂.nil
    -- the new set lists the keys that the map did not have before the block
    intro pk sigComm blockchainLoc feeAcctComm
    rw [List.mem_toFinset]
    exact mem_newElements_iff hindexes.keys
  | disconnected blocks =>
    -- as many sets go as blocks
    obtain ⟨-, rfl⟩ := handleReorg_eq_ok_iff.mp h
    simp only [hkeeps.iterate_removeSet, ChainLog.after]
    rw [hsets.length_eq]
    exact List.forall₂_take _ hsets

theorem setsIndex_run {sets : M → List (Finset ToSAccSetElement)}
    (hkeeps : KeepsSets mgr profile sets) {config : MixerConfig} {wallet : WalletState A V}
    (hempty : wallet.nullifierKv = ∅) (hmsg : P.fromDigestSlice stateUpdateText = some msg)
    {events : List (NodeEvent V)} {node : MixerNode B M}
    (hrun : Run (NodeStep P mgr profile) (MixerNode.new mgr config wallet) events node) :
    List.Forall₂ (SetIndexes P msg) (sets node.nullifierAccum) (chainLog events).surviving := by
  induction hrun with
  | start =>
    rw [MixerNode.new, hkeeps.new]
    exact List.Forall₂.nil
  | snoc hinit hlast ih =>
    rw [chainLog_snoc]
    exact setsIndex_nodeStep hkeeps (mapIndexes_run hempty hmsg hinit) ih hmsg hlast

/-- **The index of a run.**  After any blocks and reorgs on a new node, the map holds
    the entry of a key exactly when it is the entry of the key's first publication.  A
    manager that keeps the sets has one for each block still connected, with the keys
    that this block was the first to publish. -/
theorem index_is_first_publications (P : Primitives A V) (mgr : ToSAccM M V)
    (profile : Profile) (config : MixerConfig) (wallet : WalletState A V)
    (hempty : wallet.nullifierKv = ∅) (msg : Message)
    (hmsg : P.fromDigestSlice stateUpdateText = some msg) (events : List (NodeEvent V))
    (node : MixerNode B M)
    (hrun : Run (NodeStep P mgr profile) (MixerNode.new mgr config wallet) events node) :
    (∀ pk entry, node.wallet.nullifierKv.lookup pk = some entry ↔
        ChainEntry P msg (chainLog events).connected pk entry) ∧
      ∀ sets, KeepsSets mgr profile sets →
        List.Forall₂ (SetIndexes P msg) (sets node.nullifierAccum)
          (chainLog events).surviving := by
  constructor
  · exact (mapIndexes_run hempty hmsg hrun).entries
  · intro sets hkeeps
    exact setsIndex_run hkeeps hempty hmsg hrun

theorem keepsSets_ideal (profile : Profile) :
    KeepsSets .ideal profile fun nav : Nav => nav where
  new := rfl
  appendSet _ _ _ happend := (Except.ok.inj happend).symm
  removeSet _ := rfl

/-- A key that a disconnected block published first is in the map with its location
    there, and the block that publishes it again adds an empty set. -/
theorem replacedBlock_index : ∃ node : MixerNode (mockPcd : PcdBackend (Finset CoinIdOnChain) Nav)
    Nav, Run (NodeStep idealPrimitives .ideal .debug) sampleNode
        [.connected (1, [sampleAggregate [sampleKey]]) sampleChain, .disconnected 1,
          .connected (2, [sampleAggregate [sampleKey]]) [∅]] node ∧
      ChainEntry idealPrimitives ⟨zeroBytes 32⟩
        [(1, [sampleAggregate [sampleKey]]), (2, [sampleAggregate [sampleKey]])] sampleKey
        ⟨⟨zeroBytes 32⟩, locationBytes (2 ^ 24), ⟨zeroBytes 32⟩⟩ ∧
      List.Forall₂ (SetIndexes idealPrimitives ⟨zeroBytes 32⟩) [∅]
        [([(1, [sampleAggregate [sampleKey]])], (2, [sampleAggregate [sampleKey]]))] := by
  obtain ⟨reorged, hreorg⟩ : ∃ reorged, handleReorg .ideal connectedNode 1 = (.ok (), reorged) :=
    ⟨_, rfl⟩
  obtain ⟨node, hnode, hentry, haccum⟩ : ∃ node, NodeStep idealPrimitives .ideal .debug reorged
      (.connected (2, [sampleAggregate [sampleKey]]) [∅]) node ∧
      node.wallet.nullifierKv.lookup sampleKey =
        some ⟨⟨zeroBytes 32⟩, locationBytes (2 ^ 24), ⟨zeroBytes 32⟩⟩ ∧
      node.nullifierAccum = [∅] := by
    cases hreorg
    exact ⟨_, ⟨rfl, rfl⟩, rfl, rfl⟩
  have hreorgStep : NodeStep idealPrimitives .ideal .debug connectedNode (.disconnected 1)
      reorged := hreorg
  have hrun : Run (NodeStep idealPrimitives .ideal .debug) sampleNode
      [.connected (1, [sampleAggregate [sampleKey]]) sampleChain, .disconnected 1,
        .connected (2, [sampleAggregate [sampleKey]]) [∅]] node :=
    Run.snoc (Run.snoc (Run.snoc Run.start connectedNode_step) hreorgStep) hnode
  obtain ⟨hentries, hsets⟩ := index_is_first_publications idealPrimitives .ideal .debug
    MixerConfig.default (WalletState.new []) rfl ⟨zeroBytes 32⟩ rfl _ node hrun
  refine ⟨node, hrun, (hentries _ _).mp hentry, ?_⟩
  have hset := hsets _ (keepsSets_ideal .debug)
  rw [haccum] at hset
  exact hset

end PartyMix
