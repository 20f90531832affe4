import PartyMix.PaymentAcceptance

/-!
# When a payment conserves value

`payment_init` subtracts the fee from the sum of the new coins and then drops the
first new coin, while `payment_finalize_fee` pays the fee out in full.  In exact
numbers an applied payment therefore creates twice the fee and destroys the first
coin: value is conserved exactly when the first new coin is worth two fees, up to
a wrapped sum of inputs when the crate is built without overflow checks.
-/

namespace PartyMix

open FixedBytes MachineWord

variable {A V : Type}

/-- Value conservation of a finalized payment, in exact integers.  `noop` is the
    branch: whether the conditional value was shown distinct. -/
def ConservesValue (noop : Bool) (prevState : AcctState A V) (prevCoins : List (Coin V))
    (newState : AcctState A V) (coins : List (Coin V)) (feeCoin : Coin V) : Prop :=
  if noop then
    newState.essence.balance = prevState.essence.balance ∧ coins = [] ∧
      feeCoin.essence.amount = 0
  else
    newState.essence.balance.toNat + coinTotal coins + feeCoin.essence.amount.toNat =
      prevState.essence.balance.toNat + coinTotal prevCoins

/-- The amount of the coin that `new_coins[1..]` drops. -/
def droppedAmount (wLoc : PaymentInitLocalInput A V) : Nat :=
  essenceTotal (wLoc.newCoins.take 1)

/-- The dropped coin is worth two fees.  The inputs enter because their sum wraps
    without overflow checks; where it does not wrap they cancel. -/
def DropsTwoFees (prevState : AcctState A V) (prevCoins : List (Coin V))
    (wLoc : PaymentInitLocalInput A V) : Prop :=
  (prevState.essence.balance.toNat + coinTotal prevCoins) % 2 ^ 64 + 2 * wLoc.fee.toNat =
    prevState.essence.balance.toNat + coinTotal prevCoins + droppedAmount wLoc

theorem dropsTwoFees_iff_of_fits {prevState : AcctState A V} {prevCoins : List (Coin V)}
    {wLoc : PaymentInitLocalInput A V}
    (hfits : prevState.essence.balance.toNat + coinTotal prevCoins < 2 ^ 64) :
    DropsTwoFees prevState prevCoins wLoc ↔ droppedAmount wLoc = 2 * wLoc.fee.toNat := by
  unfold DropsTwoFees
  rw [Nat.mod_eq_of_lt hfits]
  omega

theorem coinTotal_finalized (partialOutput : PaymentInitOutputPartial V)
    (wLoc : PaymentFinalizeLocalInput V) (essences : List CoinEssence) :
    coinTotal (essences.map (finalizedCoin partialOutput wLoc)) = essenceTotal essences := by
  simp [coinTotal, finalizedCoin, Function.comp_def]

/-- The branch and the dropped coin decide whether a finalized payment conserves value. -/
theorem conservesValue_of_accepted {P : Primitives A V} {profile : Profile}
    {prevState newState : AcctState A V} {prevCoins coins : List (Coin V)} {feeCoin : Coin V}
    {wLoc : PaymentInitLocalInput A V} {out : PaymentInitOutput A V}
    {feeOut : PaymentInitOutputFee V} {wFin wFinFee : PaymentFinalizeLocalInput V}
    (hinit : paymentInit P profile prevState prevCoins wLoc = .ok (some (out, feeOut)))
    (hfin : paymentFinalize P out wFin = some (newState, coins))
    (hfee : paymentFinalizeFee P feeOut wFinFee = some feeCoin) :
    ConservesValue (takesNoopBranch P wLoc) prevState prevCoins newState coins feeCoin ↔
      takesNoopBranch P wLoc = true ∨ DropsTwoFees prevState prevCoins wLoc := by
  obtain ⟨newBalance, hchecks, hout⟩ := paymentInit_eq_some_iff.mp hinit
  obtain ⟨-, hbranch⟩ := paymentInitOutputs_eq_some_iff.mp hout
  obtain ⟨-, hstate⟩ := paymentFinalize_eq_some_iff.mp hfin
  obtain ⟨-, rfl⟩ := paymentFinalizeFee_eq_some_iff.mp hfee
  obtain ⟨rfl, rfl⟩ := Prod.mk.inj hstate
  rcases hbranch with ⟨hnoop, heq⟩ | ⟨happlied, -, first, rest, hcoins, heq⟩
  · -- the state stays, no coin comes out and the fee is zero
    obtain ⟨rfl, rfl⟩ := Prod.mk.inj heq
    have hbranch : takesNoopBranch P wLoc = true := hnoop
    simp [ConservesValue, hbranch, finalizedCoin]
  · -- the coins after the first come out, and the balance was computed with all of them
    obtain ⟨rfl, rfl⟩ := Prod.mk.inj heq
    have hbranch : takesNoopBranch P wLoc = false := happlied
    have hbalance := hchecks.balance
    simp only [ConservesValue, hbranch, finalizedCoin, coinTotal_finalized, DropsTwoFees,
      droppedAmount, hcoins, essenceTotal_cons, essenceTotal_nil,
      List.take_succ_cons, List.take_zero, Bool.false_eq_true, if_false, false_or] at hbalance ⊢
    omega

/-- **Value conservation.**  An accepted and finalized payment conserves value
    exactly on the no-op branch and when the dropped first coin is worth two fees.  The
    wrapped sum plays no part where the inputs fit a word, as with overflow checks. -/
theorem paymentInit_conservesValue_iff (P : Primitives A V) (profile : Profile)
    (prevState newState : AcctState A V) (prevCoins coins : List (Coin V)) (feeCoin : Coin V)
    (wLoc : PaymentInitLocalInput A V) (out : PaymentInitOutput A V)
    (feeOut : PaymentInitOutputFee V) (wFin wFinFee : PaymentFinalizeLocalInput V)
    (hinit : paymentInit P profile prevState prevCoins wLoc = .ok (some (out, feeOut)))
    (hfin : paymentFinalize P out wFin = some (newState, coins))
    (hfee : paymentFinalizeFee P feeOut wFinFee = some feeCoin) :
    (ConservesValue (takesNoopBranch P wLoc) prevState prevCoins newState coins feeCoin ↔
        takesNoopBranch P wLoc = true ∨ DropsTwoFees prevState prevCoins wLoc) ∧
      (profile = .debug ∨
          prevState.essence.balance.toNat + coinTotal prevCoins < 2 ^ 64 →
        (ConservesValue (takesNoopBranch P wLoc) prevState prevCoins newState coins feeCoin ↔
          takesNoopBranch P wLoc = true ∨ droppedAmount wLoc = 2 * wLoc.fee.toNat)) := by
  have hconserves := conservesValue_of_accepted hinit hfin hfee
  refine ⟨hconserves, ?_⟩
  intro hexact
  obtain ⟨newBalance, hchecks, -⟩ := paymentInit_eq_some_iff.mp hinit
  have hfits : prevState.essence.balance.toNat + coinTotal prevCoins < 2 ^ 64 := by
    rcases hexact with hdebug | hfits
    · exact hchecks.exact hdebug
    · exact hfits
  rw [hconserves, dropsTwoFees_iff_of_fits hfits]

/-! ### A minting payment -/

/-- From an empty account, a payment of a 5-unit coin with a fee of 5 leaves the
    balance at 0, drops the coin, and creates a fee coin of 5. -/
theorem paymentInit_mints :
    ∃ out feeOut newState coins feeCoin,
      paymentInit permissivePrimitives .debug (sampleState 0) [] (samplePayment 5 5) =
          .ok (some (out, feeOut)) ∧
        paymentFinalize permissivePrimitives out sampleFinalize = some (newState, coins) ∧
        paymentFinalizeFee permissivePrimitives feeOut sampleFinalize = some feeCoin ∧
        ¬ ConservesValue (takesNoopBranch permissivePrimitives (samplePayment 5 5))
          (sampleState 0) [] newState coins feeCoin := by
  refine ⟨_, _, _, _, _, rfl, rfl, rfl, ?_⟩
  unfold ConservesValue
  decide

theorem samplePayment_conserves :
    ∃ newState coins feeCoin,
      ConservesValue (takesNoopBranch permissivePrimitives (samplePayment 10 5))
          (sampleState 7) [] newState coins feeCoin ∧
        newState.essence.balance = 2 ∧ feeCoin.essence.amount = 5 := by
  obtain ⟨-, hexact⟩ := paymentInit_conservesValue_iff permissivePrimitives .debug (sampleState 7)
    _ [] _ _ (samplePayment 10 5) _ _ sampleFinalize sampleFinalize rfl rfl rfl
  exact ⟨_, _, _, (hexact (Or.inl rfl)).mpr (Or.inr (by decide)), rfl, rfl⟩

end PartyMix
