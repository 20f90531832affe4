import PartyMix.CoinIdentity

/-!
# Settled payments

A payment of a graph is settled on a chain when one of its outputs has been finalized
there.  The node's map has one entry per key, the commitment in it opens to one
transaction hash, and the hashed text is the transaction: so the settled payments of
one key have one outcome, and what they spend is the same.
-/

namespace PartyMix

open ChainPrefix DebugText FixedBytes MachineWord ProofGraph Transition

/-- A payment and its two outputs. -/
structure Payment (A V : Type) where
  prevState : AcctState A V
  prevCoins : List (Coin V)
  init : PaymentInitLocalInput A V
  outputs : PaymentInitOutput A V × PaymentInitOutputFee V

namespace Payment

variable {A V : Type}

def key (payment : Payment A V) : PublicKey := payment.prevState.essence.nullifierPk

def newState (payment : Payment A V) : AcctStateEssence := payment.outputs.1.acctStateEssence

/-- A payment that takes the no-op branch spends none of its coins. -/
def spentCoins (P : Primitives A V) (payment : Payment A V) : List (Coin V) :=
  if takesNoopBranch P payment.init then [] else payment.prevCoins

theorem mem_spentCoins {P : Primitives A V} {payment : Payment A V} {coin : Coin V} :
    coin ∈ payment.spentCoins P ↔
      takesNoopBranch P payment.init = false ∧ coin ∈ payment.prevCoins := by
  unfold spentCoins
  cases takesNoopBranch P payment.init <;> simp

/-- The payment is an accepted payment of the graph. -/
abbrev PaidIn (payment : Payment A V) (P : Primitives A V) (profile : Profile)
    (graph : List (PaymentVertex A V)) (known : List (EdgeLabel A V)) : Prop :=
  Paid P profile graph known payment.prevState payment.prevCoins payment.init payment.outputs

end Payment

/-- An accepted payment of the graph, of which an output has been finalized on the chain. -/
structure Settled {A : Type} (P : Primitives A Nav) (profile : Profile)
    (graph : List (PaymentVertex A Nav)) (known : List (EdgeLabel A Nav)) (chain : Nav)
    (payment : Payment A Nav) : Prop where
  paid : payment.PaidIn P profile graph known
  finalized : ∃ wFin, Finalizes P payment.outputs wFin ∧ wFin.nullifierAccum <+: chain

section OnChain

variable {A : Type} [DecidableEq A] {B : PcdBackend A Nav} {P : Primitives A Nav}
  {profile : Profile} {issued : List (Coin Nav)} {graph : List (PaymentVertex A Nav)}
  {known : List (EdgeLabel A Nav)} {node : MixerNode B Nav} {payment other : Payment A Nav}

/-- A graph of compliant payments, read against the chain of a node. -/
structure ReadOnChain (P : Primitives A Nav) (profile : Profile) (issued : List (Coin Nav))
    (graph : List (PaymentVertex A Nav)) (known : List (EdgeLabel A Nav))
    (node : MixerNode B Nav) : Prop where
  verifiers : SoundVerifiers P
  texts : ReadableTexts P
  binding : CommitBinding P
  indexed : Indexed node
  compliant : PaymentGraph P profile issued graph known
  collisionFree : CollisionFree P profile issued graph

theorem ReadOnChain.ids (hread : ReadOnChain P profile issued graph known node) :
    IdsIdentify node.nullifierAccum known :=
  idsIdentify_of_graph hread.texts hread.verifiers.unionMembership hread.verifiers.isPrefix
    hread.verifiers.distinctElement hread.indexed hread.compliant hread.collisionFree

omit [DecidableEq A] in
theorem Settled.init_onChain (hsound : IsPrefixSound P) {chain : Nav}
    (h : Settled P profile graph known chain payment) :
    payment.init.nullifierAccum <+: chain := by
  obtain ⟨wFin, hfin, hchain⟩ := h.finalized
  exact (init_extends_of_finalizes hsound h.paid.accepted hfin).trans hchain

omit [DecidableEq A] in
theorem Settled.spentCoins_onChain (hsound : IsPrefixSound P) {chain : Nav}
    (h : Settled P profile graph known chain payment) :
    ∀ coin ∈ payment.spentCoins P, .coin coin ∈ known ∧ coin.nullifierAccum <+: chain := by
  intro coin hcoin
  obtain ⟨happlied, hprev⟩ := Payment.mem_spentCoins.mp hcoin
  exact coins_onChain_of_applied hsound h.paid happlied (h.init_onChain hsound) coin hprev

/-- A finalized payment is what the node's map says about its key. -/
theorem ReadOnChain.entry (hread : ReadOnChain P profile issued graph known node)
    (hpaid : payment.PaidIn P profile graph known)
    {wFin : PaymentFinalizeLocalInput Nav} (hfin : Finalizes P payment.outputs wFin)
    (hchain : wFin.nullifierAccum <+: node.nullifierAccum) :
    node.wallet.nullifierKv.lookup payment.key = some
      ⟨payment.outputs.1.partialOutput.nullifierTxComm, wFin.blockchainLoc,
        wFin.feeAcctComm⟩ :=
  lookup_of_finalizes hread.verifiers.unionMembership hread.indexed (.account hpaid.accepted)
    hchain hfin

/-- Settled payments of one key have one commitment, so one transaction hash. -/
theorem Settled.txHash_eq (hread : ReadOnChain P profile issued graph known node)
    (h : Settled P profile graph known node.nullifierAccum payment)
    (hother : Settled P profile graph known node.nullifierAccum other)
    (hkey : payment.key = other.key) :
    payment.outputs.1.partialOutput.txHash = other.outputs.1.partialOutput.txHash := by
  obtain ⟨wFin, hfin, hchain⟩ := h.finalized
  obtain ⟨wOther, hfin', hchain'⟩ := hother.finalized
  have hentry := hread.entry h.paid hfin hchain
  rw [hkey, hread.entry hother.paid hfin' hchain', Option.some.injEq, NullifierKvEntry.mk.injEq]
    at hentry
  obtain ⟨hcomm, -, -⟩ := hentry
  obtain ⟨-, -, commPk, hcommit⟩ := (PayInit.account h.paid.accepted).partialOutput
  obtain ⟨-, -, commPk', hcommit'⟩ := (PayInit.account hother.paid.accepted).partialOutput
  rw [← hcomm] at hcommit
  exact hread.binding _ _ _ _ _ hcommit hcommit'

/-- Settled payments of one key hash one transaction. -/
theorem Settled.transaction_eq (hread : ReadOnChain P profile issued graph known node)
    (h : Settled P profile graph known node.nullifierAccum payment)
    (hother : Settled P profile graph known node.nullifierAccum other)
    (hkey : payment.key = other.key) :
    ∃ newBalance,
      InitChecks P profile payment.prevState payment.prevCoins payment.init newBalance ∧
      InitChecks P profile other.prevState other.prevCoins other.init newBalance ∧
      paymentInitTransaction payment.prevState payment.prevCoins payment.init newBalance =
        paymentInitTransaction other.prevState other.prevCoins other.init newBalance :=
  same_transaction hread.texts hread.collisionFree h.paid hother.paid
    (h.txHash_eq hread hother hkey)

theorem Settled.sameOutcome (hread : ReadOnChain P profile issued graph known node)
    (h : Settled P profile graph known node.nullifierAccum payment)
    (hother : Settled P profile graph known node.nullifierAccum other)
    (hkey : payment.key = other.key) : SameOutcome payment.outputs other.outputs := by
  obtain ⟨newBalance, hchecks, hchecks', htx⟩ := h.transaction_eq hread hother hkey
  exact sameOutcome_of_transaction hread.verifiers.isPrefix hread.verifiers.distinctElement h.paid
    hother.paid hchecks hchecks' htx (h.init_onChain hread.verifiers.isPrefix)
    (hother.init_onChain hread.verifiers.isPrefix) hread.ids

omit [DecidableEq A] in
/-- On one chain, coins with the same ids have the same on-chain ids. -/
theorem onChainIds_of_ids {chain : Nav} (hids : IdsIdentify chain known)
    {coins others : List (Coin Nav)}
    (hcoins : ∀ coin ∈ coins, .coin coin ∈ known ∧ coin.nullifierAccum <+: chain)
    (hothers : ∀ coin ∈ others, .coin coin ∈ known ∧ coin.nullifierAccum <+: chain)
    (hsame : coins.map Coin.id = others.map Coin.id) :
    coins.map Coin.onChainId = others.map Coin.onChainId := by
  apply map_eq_of_ids hids ?_ hcoins hothers hsame
  intro coin other hessence hloc
  rw [Coin.onChainId, Coin.onChainId, hessence, hloc]

/-- Settled payments of one key list the same coins. -/
theorem Settled.coinIds_eq (hread : ReadOnChain P profile issued graph known node)
    (h : Settled P profile graph known node.nullifierAccum payment)
    (hother : Settled P profile graph known node.nullifierAccum other)
    (hkey : payment.key = other.key) :
    (payment.spentCoins P).map Coin.id = (other.spentCoins P).map Coin.id := by
  obtain ⟨newBalance, -, -, htx⟩ := h.transaction_eq hread hother hkey
  have hsound := hread.verifiers.isPrefix
  have hbranch := branch_of_transaction hsound hread.verifiers.distinctElement h.paid hother.paid
    htx (h.init_onChain hsound) (hother.init_onChain hsound)
  have hcoins : payment.prevCoins.map Coin.id = other.prevCoins.map Coin.id :=
    congrArg Transaction.prevCoins htx
  rw [Payment.spentCoins, Payment.spentCoins, hbranch]
  split
  · rfl
  · exact hcoins

/-- Settled payments of one key spend the same coins. -/
theorem Settled.spentIds_eq (hread : ReadOnChain P profile issued graph known node)
    (h : Settled P profile graph known node.nullifierAccum payment)
    (hother : Settled P profile graph known node.nullifierAccum other)
    (hkey : payment.key = other.key) :
    (payment.spentCoins P).map Coin.onChainId = (other.spentCoins P).map Coin.onChainId :=
  onChainIds_of_ids hread.ids (h.spentCoins_onChain hread.verifiers.isPrefix)
    (hother.spentCoins_onChain hread.verifiers.isPrefix) (h.coinIds_eq hread hother hkey)

/-- **Nullifier keys.**  Two payments of a graph that spend one key and are finalized on
    the chain of a node are one transaction with one outcome: one hash, one location,
    one new state, one list of coins and one fee.  The two histories that lead to the
    key may differ in everything else. -/
theorem nullifierKey_oneOutcome (P : Primitives A Nav) (profile : Profile)
    (hverifiers : SoundVerifiers P) (htexts : ReadableTexts P) (hbinding : CommitBinding P)
    (config : MixerConfig) (wallet : WalletState A Nav) (events : List (NodeEvent Nav))
    (node : MixerNode B Nav)
    (hrun : Run (NodeStep P .ideal profile) (MixerNode.new .ideal config wallet) events node)
    (issued : List (Coin Nav)) (graph : List (PaymentVertex A Nav))
    (known : List (EdgeLabel A Nav)) (hgraph : PaymentGraph P profile issued graph known)
    (hfree : CollisionFree P profile issued graph) (payment other : Payment A Nav)
    (hpaid : payment.PaidIn P profile graph known)
    (hpaid' : other.PaidIn P profile graph known)
    (hkey : payment.key = other.key) (wFin wFinOther : PaymentFinalizeLocalInput Nav)
    (hfin : Finalizes P payment.outputs wFin) (hfin' : Finalizes P other.outputs wFinOther)
    (hchain : wFin.nullifierAccum <+: node.nullifierAccum)
    (hchain' : wFinOther.nullifierAccum <+: node.nullifierAccum) :
    SameOutcome payment.outputs other.outputs ∧
      payment.outputs.1.partialOutput.txHash = other.outputs.1.partialOutput.txHash ∧
      (payment.spentCoins P).map Coin.onChainId = (other.spentCoins P).map Coin.onChainId ∧
      wFin.blockchainLoc = wFinOther.blockchainLoc := by
  have hread : ReadOnChain P profile issued graph known node :=
    ⟨hverifiers, htexts, hbinding, indexed_run hrun, hgraph, hfree⟩
  have hsettled : Settled P profile graph known node.nullifierAccum payment :=
    ⟨hpaid, wFin, hfin, hchain⟩
  have hsettled' : Settled P profile graph known node.nullifierAccum other :=
    ⟨hpaid', wFinOther, hfin', hchain'⟩
  have hentry := hread.entry hpaid hfin hchain
  rw [hkey, hread.entry hpaid' hfin' hchain', Option.some.injEq, NullifierKvEntry.mk.injEq]
    at hentry
  obtain ⟨-, hloc, -⟩ := hentry
  exact ⟨hsettled.sameOutcome hread hsettled' hkey, hsettled.txHash_eq hread hsettled' hkey,
    hsettled.spentIds_eq hread hsettled' hkey, hloc.symm⟩

end OnChain

/-! ### A payment proved twice -/

/-- A commitment that opens to the transaction hash of the sample payment only. -/
noncomputable def boundComm : SigCommitment := ⟨openingOutputs.1.partialOutput.txHash⟩

noncomputable def boundPrimitives : Primitives (Finset CoinIdOnChain) Nav :=
  { graphPrimitives with
    commitRetrieve := fun _ _ => boundComm
    commitVerify := fun comm msg _ => decide (comm.bytes = msg) }

theorem boundPrimitives_binding : CommitBinding boundPrimitives := by
  intro comm msg₁ msg₂ pk₁ pk₂ h₁ h₂
  exact (of_decide_eq_true h₁).symm.trans (of_decide_eq_true h₂)

theorem boundPrimitives_sound : SoundVerifiers boundPrimitives where
  unionMembership := idealPrimitives_unionMembershipSound
  isPrefix := idealPrimitives_isPrefixSound
  distinctElement := idealPrimitives_distinctElementSound

theorem boundPrimitives_readable : ReadableTexts boundPrimitives where
  key := graphPrimitives_readable.key
  nav := graphPrimitives_readable.nav

/-- The sample payment, proved against the given value. -/
noncomputable def boundPayment (nav : Nav) : PaymentInitLocalInput (Finset CoinIdOnChain) Nav :=
  { openingPayment with nullifierTxComm := boundComm, nullifierAccum := nav }

noncomputable def boundOutputs (nav : Nav) : PaymentInitOutput (Finset CoinIdOnChain) Nav ×
    PaymentInitOutputFee Nav :=
  appliedOutputs (newacct boundPrimitives (boundPayment nav)) (boundPayment nav) 1
    (paymentInitPartial boundPrimitives (newacct boundPrimitives (boundPayment nav)) [issuedCoin]
      (boundPayment nav) 1) [⟨graphAddress, 3, beBytes 2 2⟩]

theorem boundPayment_checks (nav : Nav) :
    InitChecks boundPrimitives .debug (newacct boundPrimitives (boundPayment nav)) [issuedCoin]
      (boundPayment nav) 1 where
  owned := issuedCoin_owned
  newCoins_fit := openingPayment_checks.newCoins_fit
  fee_le := openingPayment_checks.fee_le
  balance := rfl
  exact := openingPayment_checks.exact
  unspent := rfl
  ordered := rfl

theorem boundPayment_accepted (nav : Nav) :
    paymentInitNewacct boundPrimitives .debug [issuedCoin] (boundPayment nav) =
      .ok (some (boundOutputs nav)) := by
  have hprefixes : boundPrimitives.verifyIsPrefix (requiredPrefixes
      (newacct boundPrimitives (boundPayment nav)) [issuedCoin] (boundPayment nav)) nav [] =
        true := by
    apply List.all_eq_true.mpr
    intro value hvalue
    have hcases : value ∈ [[], nav, []] := hvalue
    have hprefix : value <+: nav := by
      simp only [List.mem_cons, List.not_mem_nil, or_false] at hcases
      rcases hcases with rfl | rfl | rfl
      · exact List.nil_prefix
      · exact List.prefix_refl _
      · exact List.nil_prefix
    exact List.isPrefixOf_iff_prefix.mpr hprefix
  have hretrieved : boundPrimitives.commitVerify boundComm
      openingOutputs.1.partialOutput.txHash sampleKey = true := decide_eq_true rfl
  exact paymentInit_eq_some_iff.mpr ⟨1, boundPayment_checks nav,
    paymentInitOutputs_eq_some_iff.mpr
      ⟨hretrieved, Or.inr ⟨rfl, hprefixes, _, _, rfl, rfl⟩⟩⟩

/-- The chain of a block that publishes the sample key with the commitment. -/
noncomputable def boundChain : Nav :=
  [{(sampleKey, boundComm, locationBytes (2 ^ 24), ⟨zeroBytes 32⟩)}]

theorem boundNode_run : ∃ node : MixerNode graphPcd Nav,
    Run (NodeStep boundPrimitives .ideal .debug)
        (MixerNode.new .ideal MixerConfig.default (WalletState.new []))
        [.connected (1, [sampleAggregate [sampleKey]]) boundChain] node ∧
      node.nullifierAccum = boundChain := by
  obtain ⟨node, hstep, hchain⟩ : ∃ node : MixerNode graphPcd Nav,
      NodeStep boundPrimitives .ideal .debug
          (MixerNode.new .ideal MixerConfig.default (WalletState.new []))
          (.connected (1, [sampleAggregate [sampleKey]]) boundChain) node ∧
        node.nullifierAccum = boundChain :=
    ⟨_, ⟨rfl, rfl⟩, rfl⟩
  exact ⟨node, Run.snoc Run.start hstep, hchain⟩

noncomputable def boundFinalize : PaymentFinalizeLocalInput Nav :=
  idealFinalize boundChain (locationBytes (2 ^ 24))

theorem boundOutputs_final {nav : Nav} (hnav : nav <+: boundChain) :
    paymentFinalizeInternal boundPrimitives (boundOutputs nav).1.partialOutput boundFinalize =
      true := by
  refine paymentFinalizeInternal_eq_true_iff.mpr ⟨?_, List.any_eq_true.mpr
    ⟨_, List.mem_singleton_self _, decide_eq_true (Finset.mem_singleton_self _)⟩⟩
  apply List.all_eq_true.mpr
  intro value hvalue
  rw [List.mem_singleton.mp hvalue]
  exact List.isPrefixOf_iff_prefix.mpr hnav

/-- The state, the coin and the fee coin that the finalized payment leaves. -/
noncomputable def boundState : AcctState (Finset CoinIdOnChain) Nav :=
  ⟨⟨sampleKey, 1, ⟨beBytes 32 2⟩⟩, {issuedCoin.onChainId}, boundChain⟩

noncomputable def boundCoin : Coin Nav :=
  finalizedCoin (boundOutputs []).1.partialOutput boundFinalize ⟨graphAddress, 3, beBytes 2 2⟩

noncomputable def boundFeeCoin : Coin Nav :=
  finalizedCoin (boundOutputs boundChain).2.partialOutput boundFinalize
    ⟨⟨zeroBytes 32⟩, 1, CoinEssence.FEE_IDX⟩

theorem boundOutputs_finalize :
    paymentFinalize boundPrimitives (boundOutputs []).1 boundFinalize =
      some (boundState, [boundCoin]) :=
  paymentFinalize_eq_some_iff.mpr ⟨boundOutputs_final List.nil_prefix, rfl⟩

theorem boundOutputs_finalizeFee :
    paymentFinalizeFee boundPrimitives (boundOutputs boundChain).2 boundFinalize =
      some boundFeeCoin :=
  paymentFinalizeFee_eq_some_iff.mpr ⟨boundOutputs_final (List.prefix_refl _), rfl⟩

/-- The payment, proved before the block, its fee output, proved after it, and what
    they are finalized to. -/
noncomputable def boundGraph : List (PaymentVertex (Finset CoinIdOnChain) Nav) :=
  [⟨.paymentInitOutput (boundOutputs []).1, .paymentInit (boundPayment []), [.coin issuedCoin]⟩,
   ⟨.paymentInitOutputFee (boundOutputs boundChain).2, .paymentInit (boundPayment boundChain),
    [.coin issuedCoin]⟩,
   ⟨.acctState boundState, .paymentFinalize boundFinalize,
    [.paymentInitOutput (boundOutputs []).1]⟩,
   ⟨.coin boundCoin, .paymentFinalize boundFinalize, [.paymentInitOutput (boundOutputs []).1]⟩,
   ⟨.coin boundFeeCoin, .paymentFinalize boundFinalize,
    [.paymentInitOutputFee (boundOutputs boundChain).2]⟩]

noncomputable def boundKnown : List (EdgeLabel (Finset CoinIdOnChain) Nav) :=
  .coin issuedCoin :: boundGraph.map Vertex.out

theorem boundGraph_complies : ∀ v ∈ boundGraph,
    Complies boundPrimitives .debug v.out v.input v.ins := by
  have hpays (nav : Nav) {zOut : EdgeLabel (Finset CoinIdOnChain) Nav}
      (hout : IsOutput (boundOutputs nav) zOut) :
      Complies boundPrimitives .debug zOut (.paymentInit (boundPayment nav))
        ([issuedCoin].map .coin) :=
    accepts_of_protocolEdge
      (.opening (List.cons_ne_nil _ _) (boundPayment_accepted nav) hout)
  intro v hv
  simp only [boundGraph, List.mem_cons, List.not_mem_nil, or_false] at hv
  rcases hv with rfl | rfl | rfl | rfl | rfl
  · exact hpays [] (Or.inl rfl)
  · exact hpays boundChain (Or.inr rfl)
  · exact accepts_of_protocolEdge (.finalization boundOutputs_finalize (Or.inl rfl))
  · exact accepts_of_protocolEdge (.finalization boundOutputs_finalize
      (Or.inr ⟨_, List.mem_singleton_self _, rfl⟩))
  · exact accepts_of_protocolEdge (.feeFinalization boundOutputs_finalizeFee)

theorem boundGraph_compliant :
    PaymentGraph boundPrimitives .debug [issuedCoin] boundGraph boundKnown := by
  have hcomplies := boundGraph_complies
  simp only [boundGraph, List.forall_mem_cons] at hcomplies
  obtain ⟨hfirst, hsecond, hthird, hfourth, hfifth, -⟩ := hcomplies
  have hextends {complies : EdgeLabel (Finset CoinIdOnChain) Nav →
        LocalInput (Finset CoinIdOnChain) Nav → List (EdgeLabel (Finset CoinIdOnChain) Nav) → Prop}
      {known : List (EdgeLabel (Finset CoinIdOnChain) Nav)} {v} (h : complies v.out v.input v.ins)
      (hins : ∀ label ∈ v.ins, label ∈ known) : Extends complies known v (known ++ [v.out]) :=
    ⟨h, hins, rfl⟩
  refine Run.snoc (Run.snoc (Run.snoc (Run.snoc (Run.snoc Run.start (hextends hfirst ?_))
    (hextends hsecond ?_)) (hextends hthird ?_)) (hextends hfourth ?_)) (hextends hfifth ?_) <;>
    simp

/-- The value a payment is proved against is not in its text. -/
theorem boundGraph_hashes {v : PaymentVertex (Finset CoinIdOnChain) Nav} (hv : v ∈ boundGraph)
    {text : List UInt8} (h : Hashes boundPrimitives .debug v text) :
    text = intoBytes ((paymentInitTransaction (newacct boundPrimitives (boundPayment []))
      [issuedCoin] (boundPayment []) 1).preimage boundPrimitives
        (boundPayment []).txHashRandomness) := by
  have hhashes (nav : Nav) : Hashes boundPrimitives .debug
      ⟨.paymentInitOutput (boundOutputs nav).1, .paymentInit (boundPayment nav),
        [issuedCoin].map .coin⟩ _ :=
    ⟨_, _, _, 1, .newacct, boundPayment_checks nav, rfl⟩
  obtain ⟨wLoc, hinput⟩ := h.input
  simp only [boundGraph, List.mem_cons, List.not_mem_nil, or_false] at hv
  rcases hv with rfl | rfl | rfl | rfl | rfl
  · exact h.unique (hhashes []) rfl rfl
  · exact h.unique (hhashes boundChain) rfl rfl
  all_goals cases hinput

theorem boundGraph_collisionFree :
    CollisionFree boundPrimitives .debug [issuedCoin] boundGraph where
  payments v hv u hu text other htext hother _ := by
    rw [boundGraph_hashes hv htext, boundGraph_hashes hu hother]
  fresh v hv text htext coin hcoin := by
    rw [List.mem_singleton.mp hcoin]
    exact tallHash_ne_zero text
  issued coin hcoin other hother _ := by
    rw [List.mem_singleton.mp hcoin, List.mem_singleton.mp hother]

/-- The sample payment as it is proved against a value. -/
noncomputable def paidBound (nav : Nav) : Payment (Finset CoinIdOnChain) Nav :=
  ⟨newacct boundPrimitives (boundPayment nav), [issuedCoin], boundPayment nav, boundOutputs nav⟩

theorem paidBound_paidIn {nav : Nav} (hnav : nav = [] ∨ nav = boundChain) :
    (paidBound nav).PaidIn boundPrimitives .debug boundGraph boundKnown := by
  refine ⟨?_, boundPayment_accepted nav, by simp [paidBound, boundKnown]⟩
  rcases hnav with rfl | rfl
  · exact ⟨_, List.mem_cons_self, @Pays.newacct _ _ _ _ [issuedCoin] _⟩
  · exact ⟨_, List.mem_cons_of_mem _ List.mem_cons_self, @Pays.newacct _ _ _ _ [issuedCoin] _⟩

theorem paidBound_finalizes : Finalizes boundPrimitives (paidBound []).outputs boundFinalize ∧
    Finalizes boundPrimitives (paidBound boundChain).outputs boundFinalize :=
  ⟨Or.inl ⟨_, boundOutputs_finalize⟩, Or.inr ⟨_, boundOutputs_finalizeFee⟩⟩

/-- The payment proved before the block and finalized in full, and the one proved after
    it and finalized for its fee. -/
theorem paidBound_oneOutcome :
    (boundOutputs []).1.partialOutput.nullifierAccum ≠
        (boundOutputs boundChain).1.partialOutput.nullifierAccum ∧
      SameOutcome (boundOutputs []) (boundOutputs boundChain) := by
  obtain ⟨node, hrun, hchain⟩ := boundNode_run
  have hprefix : boundChain <+: node.nullifierAccum := hchain ▸ List.prefix_refl _
  refine ⟨(List.cons_ne_nil _ _).symm, ?_⟩
  exact (nullifierKey_oneOutcome boundPrimitives .debug boundPrimitives_sound
    boundPrimitives_readable boundPrimitives_binding _ _ _ node hrun [issuedCoin] boundGraph
    boundKnown boundGraph_compliant boundGraph_collisionFree (paidBound []) (paidBound boundChain)
    (paidBound_paidIn (Or.inl rfl)) (paidBound_paidIn (Or.inr rfl)) rfl _ _ paidBound_finalizes.1
    paidBound_finalizes.2 hprefix hprefix).1

end PartyMix
