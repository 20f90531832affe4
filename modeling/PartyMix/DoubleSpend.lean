import PartyMix.IdealAccumulator
import PartyMix.NodeRun

/-!
# No double spend on one chain

With an ideal accumulator, everything the accumulator holds is what the nullifier
map says about the key.  The map says one thing per key, so all finalizations of
one nullifier key against the node's chain use the same commitment, location and
fee address, whatever happened in between: duplicates in an aggregate, in later
aggregates, in later blocks, and reorgs.
-/

namespace PartyMix

open FirstWins FixedBytes MachineWord Transition

variable {A : Type} {B : PcdBackend A Nav} {P : Primitives A Nav} {profile : Profile}

/-! ### The index invariant -/

/-- The accumulator holds nothing the map does not say. -/
def Indexed (node : MixerNode B Nav) : Prop :=
  ∀ set ∈ node.nullifierAccum, ∀ element ∈ set,
    node.wallet.nullifierKv.lookup element.1 = some (kvEntry element).2

theorem iterate_removeSet_shortens (n : Nat) (nav : Nav) :
    ToSAccM.ideal.removeSet^[n] nav <+: nav := by
  induction n with
  | zero => exact List.prefix_refl nav
  | succ n ih =>
    rw [Function.iterate_succ_apply']
    exact (List.dropLast_prefix _).trans ih

/-- A block appends the set of its new elements to the ideal accumulator. -/
theorem nullifierAccum_blockStep {node next : MixerNode B Nav} {block : Block}
    (h : BlockStep P .ideal profile node block next) {msg : Message}
    (hmsg : P.fromDigestSlice stateUpdateText = some msg) :
    next.nullifierAccum = node.nullifierAccum ++
      [(newElements P msg node.wallet.nullifierKv block.1 block.2).toFinset] := by
  obtain ⟨found, nullifierAccum, hfound, happend, rfl⟩ := blockStep_cases h
  rw [hmsg, Option.some.injEq] at hfound
  subst hfound
  exact (Except.ok.inj happend).symm

theorem indexed_nodeStep {node next : MixerNode B Nav} {event : NodeEvent Nav}
    (hindexed : Indexed node) (h : NodeStep P .ideal profile node event next) :
    Indexed next := by
  intro set hset element helement
  cases event with
  | connected block nav =>
    obtain ⟨msg, -, hmsg, -⟩ := blockStep_cases h.1
    rw [nullifierAccum_blockStep h.1 hmsg, List.mem_append, List.mem_singleton] at hset
    rcases hset with hold | rfl
    · exact lookup_nodeStep h (hindexed set hold element helement)
    · exact lookup_newElement h.1 hmsg (List.mem_toFinset.mp helement)
  | disconnected blocks =>
    obtain ⟨-, hnext⟩ := handleReorg_eq_ok_iff.mp h
    rw [hnext] at hset
    have hkept := (iterate_removeSet_shortens blocks.toNat node.nullifierAccum).subset hset
    exact lookup_nodeStep h (hindexed set hkept element helement)

theorem indexed_run {config : MixerConfig} {wallet : WalletState A Nav}
    {events : List (NodeEvent Nav)} {node : MixerNode B Nav}
    (hrun : Run (NodeStep P .ideal profile) (MixerNode.new .ideal config wallet) events node) :
    Indexed node := by
  refine hrun.invariant (fun _ _ _ hindexed hstep => indexed_nodeStep hindexed hstep) ?_
  intro set hset
  cases hset

/-! ### Pay-init outputs and their finalization -/

/-- Accepted outputs of `payment_init` or `payment_init_newacct` that spend the
    nullifier key. -/
inductive PayInit {V : Type} (P : Primitives A V) (profile : Profile) :
    PublicKey → PaymentInitOutput A V × PaymentInitOutputFee V → Prop
  | account {prevState : AcctState A V} {prevCoins : List (Coin V)}
      {wLoc : PaymentInitLocalInput A V}
      {outputs : PaymentInitOutput A V × PaymentInitOutputFee V} :
      paymentInit P profile prevState prevCoins wLoc = .ok (some outputs) →
        PayInit P profile prevState.essence.nullifierPk outputs
  | newacct {prevCoins : List (Coin V)} {wLoc : PaymentInitLocalInput A V}
      {outputs : PaymentInitOutput A V × PaymentInitOutputFee V} :
      paymentInitNewacct P profile prevCoins wLoc = .ok (some outputs) →
        PayInit P profile wLoc.acctId outputs

def Finalizes {V : Type} (P : Primitives A V)
    (outputs : PaymentInitOutput A V × PaymentInitOutputFee V)
    (wLoc : PaymentFinalizeLocalInput V) : Prop :=
  (∃ result, paymentFinalize P outputs.1 wLoc = some result) ∨
    ∃ coin, paymentFinalizeFee P outputs.2 wLoc = some coin

/-- A commitment opens to one message only. -/
def CommitBinding {V : Type} (P : Primitives A V) : Prop :=
  ∀ comm msg₁ msg₂ pk₁ pk₂, P.commitVerify comm msg₁ pk₁ = true →
    P.commitVerify comm msg₂ pk₂ = true → msg₁ = msg₂

theorem PayInit.partialOutput {V : Type} {P : Primitives A V} {pk : PublicKey}
    {outputs : PaymentInitOutput A V × PaymentInitOutputFee V} (h : PayInit P profile pk outputs) :
    outputs.2.partialOutput = outputs.1.partialOutput ∧
      outputs.1.partialOutput.nullifierPk = pk ∧
      ∃ commPk, P.commitVerify outputs.1.partialOutput.nullifierTxComm
        outputs.1.partialOutput.txHash commPk = true := by
  cases h with
  | account hinit =>
    obtain ⟨hsame, hpk, -, hcommit⟩ := paymentInit_partialOutput hinit
    exact ⟨hsame, hpk, _, hcommit⟩
  | newacct hinit =>
    obtain ⟨hsame, hpk, -, hcommit⟩ := paymentInit_partialOutput hinit
    exact ⟨hsame, hpk, _, hcommit⟩

theorem PayInit.finalizeInternal {V : Type} {P : Primitives A V} {pk : PublicKey}
    {outputs : PaymentInitOutput A V × PaymentInitOutputFee V} (h : PayInit P profile pk outputs)
    {wLoc : PaymentFinalizeLocalInput V} (hfin : Finalizes P outputs wLoc) :
    paymentFinalizeInternal P outputs.1.partialOutput wLoc = true := by
  rcases hfin with ⟨result, hresult⟩ | ⟨coin, hcoin⟩
  · exact (paymentFinalize_eq_some_iff.mp hresult).1
  · rw [← h.partialOutput.1]
    exact (paymentFinalizeFee_eq_some_iff.mp hcoin).1

/-- A finalization on the node's chain uses what the map says about the key. -/
theorem lookup_of_finalizes (hmember : UnionMembershipSound P) {node : MixerNode B Nav}
    (hindexed : Indexed node) {pk : PublicKey}
    {outputs : PaymentInitOutput A Nav × PaymentInitOutputFee Nav}
    (hinit : PayInit P profile pk outputs) {wLoc : PaymentFinalizeLocalInput Nav}
    (hchain : wLoc.nullifierAccum <+: node.nullifierAccum) (hfin : Finalizes P outputs wLoc) :
    node.wallet.nullifierKv.lookup pk = some
      ⟨outputs.1.partialOutput.nullifierTxComm, wLoc.blockchainLoc, wLoc.feeAcctComm⟩ := by
  have hinternal := hinit.finalizeInternal hfin
  obtain ⟨-, hunion⟩ := paymentFinalizeInternal_eq_true_iff.mp hinternal
  obtain ⟨set, hset, helement⟩ := hmember _ _ _ hunion
  have hentry := hindexed set (hchain.subset hset) _ helement
  rw [hinit.partialOutput.2.1] at hentry
  exact hentry

/-- **Double-spend safety.**  Two finalizations of one nullifier key on the chain
    of a reached node use the same commitment, location and fee address, and then
    belong to the same transaction when commitments are binding. -/
theorem finalizations_agree (P : Primitives A Nav) (profile : Profile)
    (hmember : UnionMembershipSound P) (config : MixerConfig) (wallet : WalletState A Nav)
    (events : List (NodeEvent Nav)) (node : MixerNode B Nav)
    (hrun : Run (NodeStep P .ideal profile) (MixerNode.new .ideal config wallet) events node)
    (pk : PublicKey) (outputs₁ outputs₂ : PaymentInitOutput A Nav × PaymentInitOutputFee Nav)
    (hinit₁ : PayInit P profile pk outputs₁) (hinit₂ : PayInit P profile pk outputs₂)
    (wFin₁ wFin₂ : PaymentFinalizeLocalInput Nav)
    (hchain₁ : wFin₁.nullifierAccum <+: node.nullifierAccum)
    (hchain₂ : wFin₂.nullifierAccum <+: node.nullifierAccum)
    (hfin₁ : Finalizes P outputs₁ wFin₁) (hfin₂ : Finalizes P outputs₂ wFin₂) :
    outputs₁.1.partialOutput.nullifierTxComm = outputs₂.1.partialOutput.nullifierTxComm ∧
      wFin₁.blockchainLoc = wFin₂.blockchainLoc ∧ wFin₁.feeAcctComm = wFin₂.feeAcctComm ∧
      (CommitBinding P →
        outputs₁.1.partialOutput.txHash = outputs₂.1.partialOutput.txHash) := by
  have hindexed := indexed_run hrun
  have hentry₁ := lookup_of_finalizes hmember hindexed hinit₁ hchain₁ hfin₁
  have hentry₂ := lookup_of_finalizes hmember hindexed hinit₂ hchain₂ hfin₂
  rw [hentry₁, Option.some.injEq, NullifierKvEntry.mk.injEq] at hentry₂
  obtain ⟨hcomm, hloc, hfee⟩ := hentry₂
  refine ⟨hcomm, hloc, hfee, ?_⟩
  intro hbinding
  obtain ⟨-, -, commPk₁, hcommit₁⟩ := hinit₁.partialOutput
  obtain ⟨-, -, commPk₂, hcommit₂⟩ := hinit₂.partialOutput
  rw [hcomm] at hcommit₁
  exact hbinding _ _ _ _ _ hcommit₁ hcommit₂

/-- A new node with an empty wallet, on ideal accumulators and the mock backend. -/
def sampleNode : MixerNode (mockPcd : PcdBackend (Finset CoinIdOnChain) Nav) Nav :=
  MixerNode.new .ideal MixerConfig.default (WalletState.new [])

def sampleAggregate (pks : List PublicKey) : AggregateNullifier where
  pks := pks
  sig := ⟨[]⟩
  feeAcctComm := ⟨zeroBytes 32⟩

/-- The chain of one block, at height 1, that publishes the sample key. -/
def sampleChain : Nav :=
  [{(sampleKey, ⟨zeroBytes 32⟩, locationBytes (2 ^ 24), ⟨zeroBytes 32⟩)}]

/-- Two payments of one state, one finalized in full and one for its fee, after
    the key of the state is in a block. -/
theorem sampleKey_finalizations_agree :
    ∃ outputs₁ outputs₂,
      PayInit idealPrimitives .debug sampleKey outputs₁ ∧
      PayInit idealPrimitives .debug sampleKey outputs₂ ∧
      outputs₁.1.partialOutput.nullifierTxComm = outputs₂.1.partialOutput.nullifierTxComm := by
  obtain ⟨node, hnode, hchain⟩ : ∃ node,
      NodeStep idealPrimitives .ideal .debug sampleNode
        (.connected (1, [sampleAggregate [sampleKey]]) sampleChain) node ∧
      node.nullifierAccum = sampleChain :=
    ⟨_, ⟨rfl, rfl⟩, rfl⟩
  obtain ⟨outputs₁, hinit₁, hfin₁⟩ : ∃ outputs,
      paymentInit idealPrimitives .debug (idealState [] 0) [] (idealPayment [] []) =
        .ok (some outputs) ∧
      Finalizes idealPrimitives outputs (idealFinalize sampleChain (locationBytes (2 ^ 24))) :=
    ⟨_, rfl, Or.inl ⟨_, rfl⟩⟩
  obtain ⟨outputs₂, hinit₂, hfin₂⟩ : ∃ outputs,
      paymentInit idealPrimitives .debug (idealState [] 0) []
        { idealPayment [] [] with newNullifierPk := ⟨beBytes 32 2⟩ } = .ok (some outputs) ∧
      Finalizes idealPrimitives outputs (idealFinalize sampleChain (locationBytes (2 ^ 24))) :=
    ⟨_, rfl, Or.inr ⟨_, rfl⟩⟩
  have honChain : (idealFinalize sampleChain (locationBytes (2 ^ 24))).nullifierAccum <+:
      node.nullifierAccum := by
    rw [hchain]
    exact List.prefix_refl _
  have hagree := finalizations_agree idealPrimitives .debug idealPrimitives_unionMembershipSound
    _ _ _ node (Run.snoc Run.start hnode) sampleKey outputs₁ outputs₂ (.account hinit₁)
    (.account hinit₂) _ _ honChain honChain hfin₁ hfin₂
  exact ⟨outputs₁, outputs₂, .account hinit₁, .account hinit₂, hagree.1⟩

end PartyMix
