import PartyMix.ReorgHistory

/-!
# The nullifier map after a reorg

`handle_reorg` leaves `nullifier_kv` alone.  What the map should be afterwards is
what the surviving blocks alone would have recorded, and it is that exactly when
the disconnected blocks published nothing new.
-/

namespace PartyMix

open FirstWins FixedBytes MachineWord Transition

variable {A V M : Type} [DecidableEq V] {B : PcdBackend A V} {P : Primitives A V}
  {mgr : ToSAccM M V} {profile : Profile}

/-- Some aggregate of the blocks verifies and publishes the key. -/
def PublishedBy (P : Primitives A V) (blocks : List Block) (pk : PublicKey) : Prop :=
  ∃ msg, P.fromDigestSlice stateUpdateText = some msg ∧
    ∃ block ∈ blocks, pk ∈ publishedKeys P msg block.2

theorem blockStep_unique (node : MixerNode B M) (block : Block) (next₁ next₂ : MixerNode B M)
    (h₁ : BlockStep P mgr profile node block next₁)
    (h₂ : BlockStep P mgr profile node block next₂) : next₁ = next₂ := by
  have hsame := Except.ok.inj (h₁.symm.trans h₂)
  exact (Prod.mk.inj hsame).2

theorem mem_nullifierKv_iff {start node : MixerNode B M} {blocks : List Block}
    (hrun : Run (BlockStep P mgr profile) start blocks node) {pk : PublicKey} :
    pk ∈ node.wallet.nullifierKv ↔ pk ∈ start.wallet.nullifierKv ∨ PublishedBy P blocks pk := by
  induction hrun with
  | start => simp [PublishedBy]
  | @snoc blocks node next block _ hlast ih =>
    obtain ⟨msg, nullifierAccum, hmsg, -, rfl⟩ := blockStep_cases hlast
    rw [nullifierKv_connect, mem_insertAll_newElements, ih]
    constructor
    · rintro ((hstart | ⟨found, hfound, other, hother, hpk⟩) | hpk)
      · exact Or.inl hstart
      · exact Or.inr ⟨found, hfound, other, List.mem_append_left _ hother, hpk⟩
      · exact Or.inr ⟨msg, hmsg, block,
          List.mem_append_right _ (List.mem_singleton_self _), hpk⟩
    · rintro (hstart | ⟨found, hfound, other, hother, hpk⟩)
      · exact Or.inl (Or.inl hstart)
      · rcases List.mem_append.mp hother with hother | hother
        · exact Or.inl (Or.inr ⟨found, hfound, other, hother, hpk⟩)
        · -- published by the last block
          rw [hmsg, Option.some.injEq] at hfound
          rw [List.mem_singleton] at hother
          subst hfound hother
          exact Or.inr hpk

theorem nullifierKv_run_eq_iff {start node : MixerNode B M} {blocks : List Block}
    (hrun : Run (BlockStep P mgr profile) start blocks node) :
    node.wallet.nullifierKv = start.wallet.nullifierKv ↔
      ∀ pk, PublishedBy P blocks pk → pk ∈ start.wallet.nullifierKv := by
  constructor
  · -- a published key is in the map afterwards, hence it was before
    intro hsame pk hpublished
    rw [← hsame]
    exact (mem_nullifierKv_iff hrun).mpr (Or.inr hpublished)
  · intro hold
    apply Finmap.ext_lookup
    intro pk
    cases hentry : start.wallet.nullifierKv.lookup pk with
    | some entry => exact lookup_run hrun hentry
    | none =>
      rw [Finmap.lookup_eq_none] at hentry ⊢
      intro habs
      rcases (mem_nullifierKv_iff hrun).mp habs with hstart | hpublished
      · exact hentry hstart
      · exact hentry (hold pk hpublished)

/-- The map of the reorganised node is the map of the surviving chain, now and
    after any next block. -/
def MapFollowsChain (P : Primitives A V) (mgr : ToSAccM M V) (profile : Profile)
    (reorged surviving : MixerNode B M) : Prop :=
  reorged.wallet.nullifierKv = surviving.wallet.nullifierKv ∧
    ∀ block next₁ next₂, BlockStep P mgr profile reorged block next₁ →
      BlockStep P mgr profile surviving block next₂ →
        next₁.wallet.nullifierKv = next₂.wallet.nullifierKv

theorem mapFollowsChain_iff {reorged surviving : MixerNode B M} :
    MapFollowsChain P mgr profile reorged surviving ↔
      reorged.wallet.nullifierKv = surviving.wallet.nullifierKv := by
  constructor
  · intro h
    exact h.1
  · intro hsame
    refine ⟨hsame, ?_⟩
    intro block next₁ next₂ hstep₁ hstep₂
    obtain ⟨msg, -, hmsg, -⟩ := blockStep_cases hstep₁
    rw [nullifierKv_blockStep hstep₁ hmsg, nullifierKv_blockStep hstep₂ hmsg, hsame]

/-- **The map after a reorg.**  It is the map of the surviving blocks exactly when
    every key published by the disconnected blocks was in the map at the start or
    is published by a surviving block. -/
theorem handleReorg_mapFollowsChain_iff (P : Primitives A V) (mgr : ToSAccM M V)
    (profile : Profile) (start node surviving reorged : MixerNode B M) (blocks : List Block)
    (disconnected : UInt32)
    (hrun : Run (BlockStep P mgr profile) start blocks node)
    (hsurviving : Run (BlockStep P mgr profile) start
      (blocks.take (blocks.length - disconnected.toNat)) surviving)
    (hreorg : handleReorg mgr node disconnected = (.ok (), reorged)) :
    MapFollowsChain P mgr profile reorged surviving ↔
      ∀ pk, PublishedBy P (blocks.drop (blocks.length - disconnected.toNat)) pk →
        pk ∈ start.wallet.nullifierKv ∨
          PublishedBy P (blocks.take (blocks.length - disconnected.toNat)) pk := by
  rw [← List.take_append_drop (blocks.length - disconnected.toNat) blocks] at hrun
  obtain ⟨middle, hfirst, hsecond⟩ := hrun.split
  obtain rfl := Run.unique blockStep_unique hfirst hsurviving
  obtain ⟨-, rfl⟩ := handleReorg_eq_ok_iff.mp hreorg
  rw [mapFollowsChain_iff, WalletState.nullifierKv_trimNullifierHistory,
    nullifierKv_run_eq_iff hsecond]
  constructor
  · intro hold pk hpublished
    exact (mem_nullifierKv_iff hfirst).mp (hold pk hpublished)
  · intro hold pk hpublished
    exact (mem_nullifierKv_iff hfirst).mpr (hold pk hpublished)

/-- A key of a disconnected block stays in the map, and a replacement block at
    height 2 does not move it from the location it had at height 1. -/
theorem reorg_keeps_disconnected_key :
    ∃ reorged next,
      Run (BlockStep idealPrimitives .ideal .debug) sampleNode
        [(1, [sampleAggregate [sampleKey]])] connectedNode ∧
      handleReorg .ideal connectedNode 1 = (.ok (), reorged) ∧
      BlockStep idealPrimitives .ideal .debug reorged (2, [sampleAggregate [sampleKey]]) next ∧
      next.wallet.nullifierKv.lookup sampleKey =
        some ⟨⟨zeroBytes 32⟩, locationBytes (2 ^ 24), ⟨zeroBytes 32⟩⟩ ∧
      ¬ MapFollowsChain idealPrimitives .ideal .debug reorged sampleNode := by
  refine ⟨_, _, Run.snoc Run.start connectedNode_step.1, rfl, rfl, rfl, ?_⟩
  rintro ⟨hsame, -⟩
  have hlookup := congrArg (Finmap.lookup sampleKey) hsame
  cases hlookup

theorem repeatedKey_mapFollowsChain :
    ∃ node reorged,
      Run (BlockStep idealPrimitives .ideal .debug) sampleNode
        [(1, [sampleAggregate [sampleKey]]), (2, [sampleAggregate [sampleKey]])] node ∧
      handleReorg .ideal node 1 = (.ok (), reorged) ∧
      MapFollowsChain idealPrimitives .ideal .debug reorged connectedNode := by
  have hsurviving : Run (BlockStep idealPrimitives .ideal .debug) sampleNode
      [(1, [sampleAggregate [sampleKey]])] connectedNode :=
    Run.snoc Run.start connectedNode_step.1
  obtain ⟨node, hsecond⟩ : ∃ node, BlockStep idealPrimitives .ideal .debug connectedNode
      (2, [sampleAggregate [sampleKey]]) node := ⟨_, rfl⟩
  have hrun : Run (BlockStep idealPrimitives .ideal .debug) sampleNode
      [(1, [sampleAggregate [sampleKey]]), (2, [sampleAggregate [sampleKey]])] node :=
    Run.snoc hsurviving hsecond
  obtain ⟨reorged, hreorg⟩ : ∃ reorged, handleReorg .ideal node 1 = (.ok (), reorged) := by
    cases hsecond
    exact ⟨_, rfl⟩
  refine ⟨node, reorged, hrun, hreorg, ?_⟩
  refine (handleReorg_mapFollowsChain_iff idealPrimitives .ideal .debug sampleNode node
    connectedNode reorged _ 1 hrun hsurviving hreorg).mpr ?_
  rintro pk ⟨msg, hmsg, block, hblock, hpk⟩
  have hdropped : block = (2, [sampleAggregate [sampleKey]]) := List.mem_singleton.mp hblock
  subst hdropped
  exact Or.inr ⟨msg, hmsg, _, List.mem_singleton_self _, hpk⟩

end PartyMix
