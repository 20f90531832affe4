import PartyMix.PaymentConservation
import PartyMix.PaymentOwnership
import PartyMix.Settlement

/-!
# The line of an account on one chain

The settled payments of an account follow one another: the first one spends the key
the account is opened with, each further one the key its predecessor left.  A state on
the chain carries, in its spent set, the coins spent all along the line before it.  So
the coins of one chain are spent once, by one payment of one account, as long as every
payment shows an opening of each coin it spends and every no-op starts from its chain.
-/

namespace PartyMix

open ChainPrefix DebugText FixedBytes MachineWord ProofGraph Transition

variable {P : Primitives (Finset CoinIdOnChain) Nav} {profile : Profile}
  {B : PcdBackend (Finset CoinIdOnChain) Nav} {issued : List (Coin Nav)}
  {graph : List (PaymentVertex (Finset CoinIdOnChain) Nav)}
  {known : List (EdgeLabel (Finset CoinIdOnChain) Nav)} {node : MixerNode B Nav}
  {payment other : Payment (Finset CoinIdOnChain) Nav}

namespace Payment

def acctId {A V : Type} (payment : Payment A V) : PublicKey := payment.prevState.essence.id

end Payment

/-- Every settled payment shows an opening of each coin it spends, and starts a no-op
    from a state of its chain.  `payment_init` checks neither in full. -/
structure Careful {A : Type} (P : Primitives A Nav) (profile : Profile)
    (graph : List (PaymentVertex A Nav)) (known : List (EdgeLabel A Nav)) (chain : Nav) :
    Prop where
  owned : ∀ payment : Payment A Nav, Settled P profile graph known chain payment →
    ∀ coin ∈ payment.spentCoins P, ShownOwned P payment.acctId payment.init.acctCommRands coin
  noop : ∀ payment : Payment A Nav, Settled P profile graph known chain payment →
    takesNoopBranch P payment.init = true →
      payment.prevState.nullifierAccum <+: payment.init.nullifierAccum

/-- Settled payments open an address for one account id only. -/
def AddressesBind {A : Type} (P : Primitives A Nav) (profile : Profile)
    (graph : List (PaymentVertex A Nav)) (known : List (EdgeLabel A Nav)) (chain : Nav) : Prop :=
  ∀ payment other : Payment A Nav, Settled P profile graph known chain payment →
    Settled P profile graph known chain other →
      ∀ rand ∈ payment.init.acctCommRands, ∀ otherRand ∈ other.init.acctCommRands,
        Commitment.commit P payment.acctId.serialize rand =
          Commitment.commit P other.acctId.serialize otherRand → payment.acctId = other.acctId

/-! ### What a payment does to the state -/

/-- The new state belongs to the same account, and its spent set grows by the coins
    spent, none of which was in it. -/
theorem Settled.newState (hspent : NonMembershipSound P) {chain : Nav}
    (h : Settled P profile graph known chain payment) :
    payment.newState.id = payment.acctId ∧
      ((payment.spentCoins P).map Coin.onChainId).Nodup ∧
      (∀ coin ∈ payment.spentCoins P, coin.onChainId ∉ payment.prevState.spentAccum) ∧
      payment.outputs.1.spentAccum = payment.prevState.spentAccum ∪
        ((payment.spentCoins P).map Coin.onChainId).toFinset := by
  obtain ⟨newBalance, hchecks, hout⟩ := paymentInit_eq_some_iff.mp h.paid.accepted
  obtain ⟨-, hcase⟩ := paymentInitOutputs_eq_some_iff.mp hout
  rcases hcase with ⟨hnoop, heq⟩ | ⟨happlied, -, first, rest, -, heq⟩
  · have hnone : payment.spentCoins P = [] := if_pos hnoop
    rw [hnone, Payment.newState, heq]
    simp [noopOutputs, Payment.acctId]
  · have hall : payment.spentCoins P = payment.prevCoins :=
      if_neg (by simp [takesNoopBranch, happlied])
    obtain ⟨hnodup, hnew, hinserted⟩ := hspent.accepted _ _ _ _ hchecks.unspent
    rw [hall, Payment.newState, heq]
    refine ⟨rfl, hnodup, ?_, hinserted⟩
    intro coin hcoin
    exact hnew _ (List.mem_map_of_mem hcoin)

/-- A settled payment starts from a state on the chain. -/
theorem Settled.prevState_onChain {chain : Nav}
    (hcareful : Careful P profile graph known chain) (hsound : IsPrefixSound P)
    (h : Settled P profile graph known chain payment) :
    payment.prevState.nullifierAccum <+: chain := by
  have hinit := h.init_onChain hsound
  cases hbranch : takesNoopBranch P payment.init with
  | true => exact (hcareful.noop payment h hbranch).trans hinit
  | false =>
    have hrequired := requiredPrefixes_of_applied hsound h.paid.accepted hbranch
    have hmem : payment.prevState.nullifierAccum ∈
        requiredPrefixes payment.prevState payment.prevCoins payment.init :=
      List.mem_append_right _ List.mem_cons_self
    exact (hrequired _ hmem).trans hinit

/-! ### Lines -/

/-- The keys of an account, in the order in which settled payments hand them on. -/
inductive Line (P : Primitives (Finset CoinIdOnChain) Nav) (profile : Profile)
    (graph : List (PaymentVertex (Finset CoinIdOnChain) Nav))
    (known : List (EdgeLabel (Finset CoinIdOnChain) Nav)) (chain : Nav) (acctId : PublicKey) :
    Nat → PublicKey → Prop
  | opened : Line P profile graph known chain acctId 0 acctId
  | next {n : Nat} {payment : Payment (Finset CoinIdOnChain) Nav} :
      Line P profile graph known chain acctId n payment.key →
      Settled P profile graph known chain payment → payment.acctId = acctId →
        Line P profile graph known chain acctId (n + 1) payment.newState.nullifierPk

theorem Line.unique (hread : ReadOnChain P profile issued graph known node)
    {acctId : PublicKey} {n : Nat} {key otherKey : PublicKey}
    (h : Line P profile graph known node.nullifierAccum acctId n key)
    (hother : Line P profile graph known node.nullifierAccum acctId n otherKey) :
    key = otherKey := by
  induction n generalizing key otherKey with
  | zero =>
    cases h
    cases hother
    rfl
  | succ n ih =>
    cases h with
    | next hline hsettled =>
      cases hother with
      | next hline' hsettled' =>
        have houtcome := hsettled.sameOutcome hread hsettled' (ih hline hline')
        exact congrArg AcctStateEssence.nullifierPk houtcome.state

/-- A settled payment of the key spends a coin with the id. -/
def Spends (P : Primitives (Finset CoinIdOnChain) Nav) (profile : Profile)
    (graph : List (PaymentVertex (Finset CoinIdOnChain) Nav))
    (known : List (EdgeLabel (Finset CoinIdOnChain) Nav)) (chain : Nav) (key : PublicKey)
    (id : CoinIdOnChain) : Prop :=
  ∃ payment, Settled P profile graph known chain payment ∧ payment.key = key ∧
    id ∈ (payment.spentCoins P).map Coin.onChainId

/-- The state is at position `n` of its account's line, and its spent set holds what
    the line has spent before. -/
structure Traced (P : Primitives (Finset CoinIdOnChain) Nav) (profile : Profile)
    (graph : List (PaymentVertex (Finset CoinIdOnChain) Nav))
    (known : List (EdgeLabel (Finset CoinIdOnChain) Nav)) (chain : Nav)
    (state : AcctState (Finset CoinIdOnChain) Nav) (n : Nat) : Prop where
  line : Line P profile graph known chain state.essence.id n state.essence.nullifierPk
  spent : ∀ m < n, ∀ key, Line P profile graph known chain state.essence.id m key →
    ∀ id, Spends P profile graph known chain key id → id ∈ state.spentAccum

theorem traced_newacct {chain : Nav} (init : PaymentInitLocalInput (Finset CoinIdOnChain) Nav) :
    Traced P profile graph known chain (newacct P init) 0 where
  line := .opened
  spent m hm := absurd hm (Nat.not_lt_zero m)

/-- A settled payment moves the account one step along its line. -/
theorem Traced.next (hread : ReadOnChain P profile issued graph known node)
    (hspent : NonMembershipSound P) {n : Nat}
    (htraced : Traced P profile graph known node.nullifierAccum payment.prevState n)
    (hsettled : Settled P profile graph known node.nullifierAccum payment)
    {state : AcctState (Finset CoinIdOnChain) Nav}
    (hessence : state.essence = payment.newState)
    (haccum : state.spentAccum = payment.outputs.1.spentAccum) :
    Traced P profile graph known node.nullifierAccum state (n + 1) := by
  obtain ⟨hid, -, -, hgrows⟩ := hsettled.newState hspent
  have hacct : state.essence.id = payment.acctId := by rw [hessence, hid]
  have hline : Line P profile graph known node.nullifierAccum payment.acctId n payment.key :=
    htraced.line
  constructor
  · -- the settled payment leads one step down the line of its account
    rw [hacct, hessence]
    exact .next hline hsettled rfl
  · intro m hm key hkey id hspends
    rw [haccum, hgrows, Finset.mem_union]
    rw [hacct] at hkey
    rcases Nat.lt_succ_iff_lt_or_eq.mp hm with hbefore | rfl
    · -- spent further up the line, so the state before had it
      exact Or.inl (htraced.spent m hbefore key hkey id hspends)
    · -- spent by the payment itself, which is the only one of its key
      obtain ⟨spender, hspender, hsame, hmem⟩ := hspends
      have hkeys : spender.key = payment.key := hsame.trans (hkey.unique hread hline)
      rw [hspender.spentIds_eq hread hsettled hkeys] at hmem
      exact Or.inr (List.mem_toFinset.mpr hmem)

/-- What every known label says about the line: a state on the chain is traced, and an
    output belongs to a payment of such a state or of a new account. -/
def TracedLabel (P : Primitives (Finset CoinIdOnChain) Nav) (profile : Profile)
    (graph : List (PaymentVertex (Finset CoinIdOnChain) Nav))
    (known : List (EdgeLabel (Finset CoinIdOnChain) Nav)) (chain : Nav) :
    EdgeLabel (Finset CoinIdOnChain) Nav → Prop
  | .acctState state => state.nullifierAccum <+: chain →
      ∃ n, Traced P profile graph known chain state n
  | .paymentInitOutput output => ∃ payment : Payment (Finset CoinIdOnChain) Nav,
      payment.PaidIn P profile graph known ∧ payment.outputs.1 = output ∧
        (payment.prevState.nullifierAccum <+: chain →
          ∃ n, Traced P profile graph known chain payment.prevState n)
  | _ => True

theorem tracedLabel_of_known (hread : ReadOnChain P profile issued graph known node)
    (hspent : NonMembershipSound P) (hcareful : Careful P profile graph known node.nullifierAccum) :
    ∀ label ∈ known, TracedLabel P profile graph known node.nullifierAccum label := by
  apply hread.compliant.invariant (I := TracedLabel P profile graph known node.nullifierAccum)
  · -- issued labels are coins, about which nothing is said
    intro label hissued
    obtain ⟨coin, -, rfl⟩ := List.mem_map.mp hissued
    exact trivial
  · rintro ⟨zOut, wLoc, zIn⟩ hv hcomplies hins
    cases protocolEdge_of_accepts hcomplies with
    | @payment _ prevState prevCoins init output outputFee hinit hout =>
      -- a payment output keeps the trace of the state it was paid from; a fee output carries none
      rcases hout with rfl | rfl
      · have hpaid : Paid P profile graph known prevState prevCoins init (output, outputFee) :=
          ⟨⟨_, hv, .account⟩, hinit,
            fun coin hcoin => (hins _ (Pays.coin_mem (P := P) .account hcoin)).1⟩
        exact ⟨⟨prevState, prevCoins, init, (output, outputFee)⟩, hpaid, rfl,
          (hins _ List.mem_cons_self).2⟩
      · exact trivial
    | @opening _ prevCoins init output outputFee _ hinit hout =>
      -- a new account starts its own line, at number 0
      rcases hout with rfl | rfl
      · have hpaid : Paid P profile graph known (newacct P init) prevCoins init
            (output, outputFee) :=
          ⟨⟨_, hv, .newacct⟩, hinit,
            fun coin hcoin => (hins _ (Pays.coin_mem (P := P) .newacct hcoin)).1⟩
        exact ⟨⟨newacct P init, prevCoins, init, (output, outputFee)⟩, hpaid, rfl,
          fun _ => ⟨0, traced_newacct init⟩⟩
      · exact trivial
    | @finalization _ output wFin state coins hfin hout =>
      rcases hout with rfl | ⟨coin, -, rfl⟩
      · -- a state finalized on the chain settles its payment, which moves the line on by one
        intro hchain
        obtain ⟨payment, hpaid, rfl, htraced⟩ := (hins _ (List.mem_singleton_self _)).2
        obtain ⟨-, hresult⟩ := paymentFinalize_eq_some_iff.mp hfin
        obtain ⟨rfl, -⟩ := Prod.mk.inj hresult
        have hsettled : Settled P profile graph known node.nullifierAccum payment :=
          ⟨hpaid, wFin, Or.inl ⟨_, hfin⟩, hchain⟩
        obtain ⟨n, hn⟩ := htraced (hsettled.prevState_onChain hcareful hread.verifiers.isPrefix)
        exact ⟨n + 1, hn.next hread hspent hsettled rfl rfl⟩
      · exact trivial
    | feeFinalization => exact trivial

/-- The state a settled payment starts from is on the line of its account. -/
theorem Settled.traced (hread : ReadOnChain P profile issued graph known node)
    (hspent : NonMembershipSound P) (hcareful : Careful P profile graph known node.nullifierAccum)
    (h : Settled P profile graph known node.nullifierAccum payment) :
    ∃ n, Traced P profile graph known node.nullifierAccum payment.prevState n := by
  obtain ⟨v, hv, hpays⟩ := h.paid.vertex
  obtain ⟨-, hins, -⟩ := hread.compliant.complies_of_mem hv
  have hchain := h.prevState_onChain hcareful hread.verifiers.isPrefix
  generalize payment.prevState = prevState, payment.prevCoins = prevCoins, payment.init = init
    at hpays hchain
  cases hpays with
  | account =>
    exact tracedLabel_of_known hread hspent hcareful _ (hins _ List.mem_cons_self) hchain
  | newacct => exact ⟨0, traced_newacct init⟩

/-- Coins of one id are spent by payments of one account. -/
theorem Settled.acctId_eq (hread : ReadOnChain P profile issued graph known node)
    (hcareful : Careful P profile graph known node.nullifierAccum)
    (hbind : AddressesBind P profile graph known node.nullifierAccum)
    (h : Settled P profile graph known node.nullifierAccum payment)
    (hother : Settled P profile graph known node.nullifierAccum other) {coin spent : Coin Nav}
    (hcoin : coin ∈ payment.spentCoins P) (hspent : spent ∈ other.spentCoins P)
    (hid : coin.id = spent.id) :
    payment.acctId = other.acctId ∧ coin.onChainId = spent.onChainId := by
  obtain ⟨hknown, hchain⟩ := h.spentCoins_onChain hread.verifiers.isPrefix coin hcoin
  obtain ⟨hknown', hchain'⟩ := hother.spentCoins_onChain hread.verifiers.isPrefix spent hspent
  obtain ⟨hessence, hloc⟩ := hread.ids coin spent hknown hknown' hchain hchain' hid
  obtain ⟨rand, hrand, haddress⟩ := hcareful.owned payment h coin hcoin
  obtain ⟨otherRand, hotherRand, haddress'⟩ := hcareful.owned other hother spent hspent
  constructor
  · apply hbind payment other h hother rand hrand otherRand hotherRand
    rw [← haddress, ← haddress', hessence]
  · rw [Coin.onChainId, Coin.onChainId, hessence, hloc]

/-- A coin that the line has spent before is not spent again. -/
theorem Settled.not_spent_before (hspent : NonMembershipSound P) {chain : Nav}
    (h : Settled P profile graph known chain payment) {n m : Nat} {key : PublicKey}
    (htraced : Traced P profile graph known chain payment.prevState n) (hm : m < n)
    (hline : Line P profile graph known chain payment.acctId m key) {coin : Coin Nav}
    (hspends : Spends P profile graph known chain key coin.onChainId) :
    coin ∉ payment.spentCoins P := by
  intro hcoin
  obtain ⟨-, -, hnew, -⟩ := h.newState hspent
  exact hnew coin hcoin (htraced.spent m hm key hline _ hspends)

/-- Settled payments that spend coins of one id spend one key. -/
theorem Settled.key_eq_of_spent (hread : ReadOnChain P profile issued graph known node)
    (hspent : NonMembershipSound P) (hcareful : Careful P profile graph known node.nullifierAccum)
    (hbind : AddressesBind P profile graph known node.nullifierAccum)
    (h : Settled P profile graph known node.nullifierAccum payment)
    (hother : Settled P profile graph known node.nullifierAccum other) {coin spent : Coin Nav}
    (hcoin : coin ∈ payment.spentCoins P) (hcoin' : spent ∈ other.spentCoins P)
    (hid : coin.id = spent.id) : payment.key = other.key := by
  obtain ⟨hacct, honChain⟩ := h.acctId_eq hread hcareful hbind hother hcoin hcoin' hid
  obtain ⟨n, htraced⟩ := h.traced hread hspent hcareful
  obtain ⟨m, htraced'⟩ := hother.traced hread hspent hcareful
  have hline : Line P profile graph known node.nullifierAccum payment.acctId n payment.key :=
    htraced.line
  have hline' : Line P profile graph known node.nullifierAccum other.acctId m other.key :=
    htraced'.line
  have hspends : Spends P profile graph known node.nullifierAccum payment.key spent.onChainId :=
    ⟨payment, h, rfl, honChain ▸ List.mem_map_of_mem hcoin⟩
  have hspends' : Spends P profile graph known node.nullifierAccum other.key coin.onChainId :=
    ⟨other, hother, rfl, honChain ▸ List.mem_map_of_mem hcoin'⟩
  rcases Nat.lt_trichotomy n m with hbefore | rfl | hafter
  · -- the first of the two stands earlier on the line, so the second cannot spend the coin again
    rw [hacct] at hline
    exact absurd hcoin' (hother.not_spent_before hspent htraced' hbefore hline hspends)
  · -- one place on the line has one key
    rw [hacct] at hline
    exact hline.unique hread hline'
  · rw [← hacct] at hline'
    exact absurd hcoin (h.not_spent_before hspent htraced hafter hline' hspends')

/-- A settled payment spends one coin of an id. -/
theorem Settled.coin_eq_of_spent (hread : ReadOnChain P profile issued graph known node)
    (hspent : NonMembershipSound P)
    (hcareful : Careful P profile graph known node.nullifierAccum)
    (hbind : AddressesBind P profile graph known node.nullifierAccum)
    (h : Settled P profile graph known node.nullifierAccum payment) {coin spent : Coin Nav}
    (hcoin : coin ∈ payment.spentCoins P) (hcoin' : spent ∈ payment.spentCoins P)
    (hid : coin.id = spent.id) : coin = spent := by
  obtain ⟨-, honChain⟩ := h.acctId_eq hread hcareful hbind h hcoin hcoin' hid
  obtain ⟨-, hnodup, -⟩ := h.newState hspent
  exact (List.nodup_map_iff_inj_on (List.Nodup.of_map _ hnodup)).mp hnodup _ hcoin _ hcoin'
    honChain

/-- **Spent once.**  On the chain of a node, two settled payments that spend a coin of one
    id spend one key and are one transaction, in whatever graph of payments they stand. -/
theorem coins_spent_once (P : Primitives (Finset CoinIdOnChain) Nav) (profile : Profile)
    (hverifiers : SoundVerifiers P) (hspent : NonMembershipSound P) (htexts : ReadableTexts P)
    (hbinding : CommitBinding P) (config : MixerConfig)
    (wallet : WalletState (Finset CoinIdOnChain) Nav) (events : List (NodeEvent Nav))
    (node : MixerNode B Nav)
    (hrun : Run (NodeStep P .ideal profile) (MixerNode.new .ideal config wallet) events node)
    (issued : List (Coin Nav)) (graph : List (PaymentVertex (Finset CoinIdOnChain) Nav))
    (known : List (EdgeLabel (Finset CoinIdOnChain) Nav))
    (hgraph : PaymentGraph P profile issued graph known)
    (hfree : CollisionFree P profile issued graph)
    (hbind : AddressesBind P profile graph known node.nullifierAccum)
    (hcareful : Careful P profile graph known node.nullifierAccum)
    (payment other : Payment (Finset CoinIdOnChain) Nav)
    (hsettled : Settled P profile graph known node.nullifierAccum payment)
    (hsettled' : Settled P profile graph known node.nullifierAccum other) (coin spent : Coin Nav)
    (hcoin : coin ∈ payment.spentCoins P) (hcoin' : spent ∈ other.spentCoins P)
    (hid : coin.id = spent.id) :
    payment.key = other.key ∧ SameOutcome payment.outputs other.outputs ∧
      payment.outputs.1.partialOutput.txHash = other.outputs.1.partialOutput.txHash := by
  have hread : ReadOnChain P profile issued graph known node :=
    ⟨hverifiers, htexts, hbinding, indexed_run hrun, hgraph, hfree⟩
  have hkey := hsettled.key_eq_of_spent hread hspent hcareful hbind hsettled' hcoin hcoin' hid
  exact ⟨hkey, hsettled.sameOutcome hread hsettled' hkey, hsettled.txHash_eq hread hsettled' hkey⟩

/-! ### The sample payment -/

theorem boundPrimitives_nonMembershipSound : NonMembershipSound boundPrimitives where
  accNew := idealPrimitives_nonMembershipSound.accNew
  accepted := idealPrimitives_nonMembershipSound.accepted

/-- The sample graph has one payment, proved against two values. -/
theorem paid_boundGraph {payment : Payment (Finset CoinIdOnChain) Nav}
    (h : payment.PaidIn boundPrimitives .debug boundGraph boundKnown) :
    ∃ nav, payment.prevState = newacct boundPrimitives (boundPayment nav) ∧
      payment.prevCoins = [issuedCoin] ∧ payment.init = boundPayment nav := by
  obtain ⟨v, hv, hpays⟩ := h.vertex
  have hpayment (nav : Nav) (hinput : v.input = .paymentInit (boundPayment nav))
      (hins : v.ins = [issuedCoin].map .coin) :
      payment.prevState = newacct boundPrimitives (boundPayment nav) ∧
        payment.prevCoins = [issuedCoin] ∧ payment.init = boundPayment nav := by
    have hsample : Pays boundPrimitives ⟨v.out, .paymentInit (boundPayment nav),
        [issuedCoin].map .coin⟩ (newacct boundPrimitives (boundPayment nav)) [issuedCoin]
        (boundPayment nav) := .newacct
    exact hpays.unique hsample hinput hins
  simp only [boundGraph, List.mem_cons, List.not_mem_nil, or_false] at hv
  rcases hv with rfl | rfl | rfl | rfl | rfl
  · exact ⟨[], hpayment [] rfl rfl⟩
  · exact ⟨boundChain, hpayment boundChain rfl rfl⟩
  all_goals cases hpays

theorem boundGraph_careful {chain : Nav} :
    Careful boundPrimitives .debug boundGraph boundKnown chain where
  owned payment h coin hcoin := by
    obtain ⟨nav, hstate, hcoins, hinit⟩ := paid_boundGraph h.paid
    obtain ⟨-, hprev⟩ := Payment.mem_spentCoins.mp hcoin
    rw [hcoins, List.mem_singleton] at hprev
    rw [hprev, Payment.acctId, hstate, hinit]
    exact ⟨zeroBytes 32, List.mem_singleton_self _, rfl⟩
  noop payment h hnoop := by
    obtain ⟨nav, -, -, hinit⟩ := paid_boundGraph h.paid
    have happlied : takesNoopBranch boundPrimitives (boundPayment nav) = false := rfl
    rw [hinit, happlied] at hnoop
    cases hnoop

theorem boundGraph_addressesBind {chain : Nav} :
    AddressesBind boundPrimitives .debug boundGraph boundKnown chain := by
  intro payment other h hother rand _ otherRand _ _
  obtain ⟨nav, hstate, -⟩ := paid_boundGraph h.paid
  obtain ⟨nav', hstate', -⟩ := paid_boundGraph hother.paid
  rw [Payment.acctId, Payment.acctId, hstate, hstate']
  rfl

theorem paidBound_settled {nav : Nav} (hnav : nav = [] ∨ nav = boundChain) :
    Settled boundPrimitives .debug boundGraph boundKnown boundChain (paidBound nav) := by
  refine ⟨paidBound_paidIn hnav, boundFinalize, ?_, List.prefix_refl _⟩
  rcases hnav with rfl | rfl
  · exact paidBound_finalizes.1
  · exact paidBound_finalizes.2

/-- The two proofs of the sample payment spend the issued coin. -/
theorem issuedCoin_spent_once :
    issuedCoin ∈ (paidBound []).spentCoins boundPrimitives ∧
      issuedCoin ∈ (paidBound boundChain).spentCoins boundPrimitives ∧
      (paidBound []).outputs.1.partialOutput.txHash =
        (paidBound boundChain).outputs.1.partialOutput.txHash := by
  obtain ⟨node, hrun, hchain⟩ := boundNode_run
  have hspends (nav : Nav) : issuedCoin ∈ (paidBound nav).spentCoins boundPrimitives :=
    Payment.mem_spentCoins.mpr ⟨rfl, List.mem_singleton_self _⟩
  refine ⟨hspends [], hspends boundChain, ?_⟩
  exact (coins_spent_once boundPrimitives .debug boundPrimitives_sound
    boundPrimitives_nonMembershipSound boundPrimitives_readable boundPrimitives_binding _ _ _ node
    hrun [issuedCoin] boundGraph boundKnown boundGraph_compliant boundGraph_collisionFree
    boundGraph_addressesBind boundGraph_careful (paidBound []) (paidBound boundChain)
    (hchain ▸ paidBound_settled (Or.inl rfl)) (hchain ▸ paidBound_settled (Or.inr rfl)) issuedCoin
    issuedCoin (hspends []) (hspends boundChain) rfl).2.2

end PartyMix
