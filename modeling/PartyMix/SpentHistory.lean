import PartyMix.AccountHistory

/-!
# The coins an account spends over its history

The spent accumulator value travels from the state through `payment_init` into the
output and through `payment_finalize` into the next state.  The applied branch
carries the value with the new ids and the no-op branch the old value, so the
accumulator holds the ids of the coins that applied steps consumed, each once.
-/

namespace PartyMix

open FixedBytes MachineWord Transition

variable {V : Type} {P : Primitives (Finset CoinIdOnChain) V} {profile : Profile}

/-- The ids of the coins a step consumes: those it lists, on the applied branch. -/
def consumedIds {A : Type} (P : Primitives A V) (step : PaymentStep A V) : List CoinIdOnChain :=
  if takesNoopBranch P step.init then [] else step.prevCoins.map Coin.onChainId

def historyIds {A : Type} (P : Primitives A V) (history : List (PaymentStep A V)) :
    List CoinIdOnChain :=
  history.flatMap (consumedIds P)

theorem historyIds_snoc {A : Type} (P : Primitives A V) (history : List (PaymentStep A V))
    (step : PaymentStep A V) :
    historyIds P (history ++ [step]) = historyIds P history ++ consumedIds P step := by
  simp [historyIds]

/-- The spent set of an account; an account that is not opened has spent nothing. -/
def spentIds : Option (AcctState (Finset CoinIdOnChain) V) → Finset CoinIdOnChain
  | none => ∅
  | some state => state.spentAccum

/-- A step adds the ids it consumes to the spent set, where they were not before. -/
theorem spentIds_step (hsound : NonMembershipSound P)
    {acct next : Option (AcctState (Finset CoinIdOnChain) V)}
    {step : PaymentStep (Finset CoinIdOnChain) V} (h : AccountStep P profile acct step next) :
    (consumedIds P step).Nodup ∧ (∀ id ∈ consumedIds P step, id ∉ spentIds acct) ∧
      spentIds next = spentIds acct ∪ (consumedIds P step).toFinset := by
  obtain ⟨hinit, hfin⟩ := h.accepted
  obtain ⟨newBalance, hchecks, hout⟩ := paymentInit_eq_some_iff.mp hinit
  obtain ⟨-, hresult⟩ := paymentFinalize_eq_some_iff.mp hfin
  obtain ⟨hstate, -⟩ := Prod.mk.inj hresult
  have hprev : step.prevState.spentAccum = spentIds acct := by
    cases h with
    | opened hstart =>
      rw [hstart]
      exact hsound.accNew
    | continued => rfl
  have hnext : spentIds next = step.outputs.1.spentAccum := by
    cases h <;> simp [spentIds, hstate]
  obtain ⟨-, hbranch⟩ := paymentInitOutputs_eq_some_iff.mp hout
  rcases hbranch with ⟨hnoop, hout⟩ | ⟨happlied, -, first, rest, -, hout⟩
  · -- a no-op consumes nothing and keeps the accumulator
    have hnone : consumedIds P step = [] := if_pos hnoop
    have hkept : step.outputs.1.spentAccum = step.prevState.spentAccum := by
      rw [hout]
      rfl
    rw [hnone, hnext, hkept, hprev]
    simp
  · -- an applied payment consumes all its coins, and its insertion was accepted
    have hall : consumedIds P step = step.prevCoins.map Coin.onChainId :=
      if_neg (by simp [takesNoopBranch, happlied])
    have hinserted : step.outputs.1.spentAccum = step.init.newSpentAccum := by
      rw [hout]
      rfl
    rw [hall, hnext, hinserted, ← hprev]
    exact hsound.accepted _ _ _ _ hchecks.unspent

/-- **Spent once.**  Over a history of any length the coins consumed by applied
    steps have pairwise distinct ids, and the spent accumulator is the set of them. -/
theorem historyIds_spent_once (P : Primitives (Finset CoinIdOnChain) V) (profile : Profile)
    (hsound : NonMembershipSound P) (history : List (PaymentStep (Finset CoinIdOnChain) V))
    (acct : Option (AcctState (Finset CoinIdOnChain) V))
    (hrun : Run (AccountStep P profile) none history acct) :
    (historyIds P history).Nodup ∧
      ∀ final, acct = some final → final.spentAccum = (historyIds P history).toFinset := by
  have hspent : (historyIds P history).Nodup ∧
      spentIds acct = (historyIds P history).toFinset := by
    induction hrun with
    | start => exact ⟨List.nodup_nil, rfl⟩
    | @snoc history acct next step _ hlast ih =>
      obtain ⟨hnodup, hset⟩ := ih
      obtain ⟨hstep, hnew, hnext⟩ := spentIds_step hsound hlast
      rw [historyIds_snoc]
      constructor
      · rw [List.nodup_append]
        refine ⟨hnodup, hstep, ?_⟩
        rintro id hold other hother rfl
        apply hnew id hother
        rw [hset]
        exact List.mem_toFinset.mpr hold
      · rw [hnext, hset, List.toFinset_append]
  refine ⟨hspent.1, ?_⟩
  rintro final rfl
  exact hspent.2

/-- A coin worth nothing, on the empty chain. -/
def emptyCoin (blockchainLoc : BlockchainLocation) : Coin Nav where
  essence := ⟨⟨zeroBytes 32⟩, 0, beBytes 2 1⟩
  txHash := zeroBytes 32
  blockchainLoc := blockchainLoc
  nullifierAccum := []

def consumedCoin : Coin Nav := emptyCoin (zeroBytes 6)

def listedCoin : Coin Nav := emptyCoin (locationBytes (2 ^ 24))

/-- The account on the sample chain that has consumed the first coin. -/
def consumedState : AcctState (Finset CoinIdOnChain) Nav :=
  { idealState sampleChain 0 with spentAccum := {consumedCoin.onChainId} }

def consumingPayment : PaymentInitLocalInput (Finset CoinIdOnChain) Nav :=
  { idealPayment [] [] with newSpentAccum := {consumedCoin.onChainId} }

def listingPayment : PaymentInitLocalInput (Finset CoinIdOnChain) Nav :=
  { idealPayment sampleChain orphanChain with
    newSpentAccum := {consumedCoin.onChainId, listedCoin.onChainId} }

def consumingStep (outputs : PaymentInitOutput (Finset CoinIdOnChain) Nav ×
    PaymentInitOutputFee Nav) : PaymentStep (Finset CoinIdOnChain) Nav where
  prevState := newacct idealPrimitives consumingPayment
  prevCoins := [consumedCoin]
  init := consumingPayment
  outputs := outputs
  fin := idealFinalize sampleChain (locationBytes (2 ^ 24))
  newState := consumedState
  newCoins := []

def listingStep (outputs : PaymentInitOutput (Finset CoinIdOnChain) Nav ×
    PaymentInitOutputFee Nav) : PaymentStep (Finset CoinIdOnChain) Nav where
  prevState := consumedState
  prevCoins := [listedCoin]
  init := listingPayment
  outputs := outputs
  fin := idealFinalize sampleChain (locationBytes (2 ^ 24))
  newState := consumedState
  newCoins := []

theorem consumingStep_accepted : ∃ outputs,
    AccountStep idealPrimitives .debug none (consumingStep outputs) (some consumedState) := by
  obtain ⟨outputs, hinit, hfin⟩ : ∃ outputs,
      paymentInitNewacct idealPrimitives .debug [consumedCoin] consumingPayment =
          .ok (some outputs) ∧
        paymentFinalize idealPrimitives outputs.1
          (idealFinalize sampleChain (locationBytes (2 ^ 24))) = some (consumedState, []) :=
    ⟨_, rfl, rfl⟩
  have hstep : AccountStep idealPrimitives .debug none (consumingStep outputs)
      (some (consumingStep outputs).newState) := .opened rfl hinit hfin
  exact ⟨outputs, hstep⟩

theorem listingStep_accepted : ∃ outputs,
    AccountStep idealPrimitives .debug (some consumedState) (listingStep outputs)
      (some consumedState) := by
  obtain ⟨outputs, hinit, hfin⟩ : ∃ outputs,
      paymentInit idealPrimitives .debug consumedState [listedCoin] listingPayment =
          .ok (some outputs) ∧
        paymentFinalize idealPrimitives outputs.1
          (idealFinalize sampleChain (locationBytes (2 ^ 24))) = some (consumedState, []) :=
    ⟨_, rfl, rfl⟩
  have hstep : AccountStep idealPrimitives .debug (some (listingStep outputs).prevState)
      (listingStep outputs) (some (listingStep outputs).newState) := .continued hinit hfin
  exact ⟨outputs, hstep⟩

/-- The account consumes one coin and then lists another in a no-op step. -/
theorem consumedCoin_spent_once :
    ∃ history final, Run (AccountStep idealPrimitives .debug) none history (some final) ∧
      history.map PaymentStep.prevCoins = [[consumedCoin], [listedCoin]] ∧
      (historyIds idealPrimitives history).Nodup ∧
      final.spentAccum = {consumedCoin.onChainId} := by
  obtain ⟨opened, hopened⟩ := consumingStep_accepted
  obtain ⟨listed, hlisted⟩ := listingStep_accepted
  have hrun := Run.snoc (Run.snoc Run.start hopened) hlisted
  obtain ⟨hnodup, hset⟩ := historyIds_spent_once idealPrimitives .debug
    idealPrimitives_nonMembershipSound _ _ hrun
  refine ⟨_, _, hrun, rfl, hnodup, ?_⟩
  rw [hset _ rfl]
  rfl

end PartyMix
