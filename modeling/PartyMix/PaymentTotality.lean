import PartyMix.PaymentAcceptance

/-!
# When `payment_init` answers

The predicate is meant to answer on every input: to reject, or to return outputs whose
balance is exact.  Two steps of it do not: the plain sum of the previous balance and
the previous coins, and the slice `new_coins[1..]`.  `rejectsCleanly_iff` says on
which inputs neither goes wrong.
-/

namespace PartyMix

open FixedBytes MachineWord

variable {A V : Type}

/-- The predicate answers under both profiles, an overflow of the available funds is
    rejected, and an applied payment leaves the exact balance.  With overflow checks
    an answer also says that no plain operator overflowed. -/
structure RejectsCleanly (P : Primitives A V) (prevState : AcctState A V)
    (prevCoins : List (Coin V)) (wLoc : PaymentInitLocalInput A V) : Prop where
  answers : ∀ profile, ∃ result, paymentInit P profile prevState prevCoins wLoc = .ok result
  overflow_rejected : 2 ^ 64 ≤ prevState.essence.balance.toNat + coinTotal prevCoins →
    ∀ profile, paymentInit P profile prevState prevCoins wLoc = .ok none
  exact_balance : ∀ profile outputs,
    paymentInit P profile prevState prevCoins wLoc = .ok (some outputs) →
      takesNoopBranch P wLoc = false →
        (outputs.1.acctStateEssence.balance.toNat : Int) =
          prevState.essence.balance.toNat + coinTotal prevCoins -
            (essenceTotal wLoc.newCoins - wLoc.fee.toNat)

/-- The checks that come before the available funds are added up. -/
structure PassesFirstChecks (P : Primitives A V) (prevState : AcctState A V)
    (prevCoins : List (Coin V)) (wLoc : PaymentInitLocalInput A V) : Prop where
  owned : ∀ pair ∈ prevCoins.zip wLoc.acctCommRands,
    pair.1.essence.address = Commitment.commit P prevState.essence.id.serialize pair.2
  newCoins_fit : essenceTotal wLoc.newCoins < 2 ^ 64
  fee_le : wLoc.fee.toNat ≤ essenceTotal wLoc.newCoins

def fundsWord (prevState : AcctState A V) (prevCoins : List (Coin V)) : UInt64 :=
  UInt64.ofNat (prevState.essence.balance.toNat + coinTotal prevCoins)

/-- A payment without new coins and fee that every verifier accepts, on the applied
    branch. -/
structure AcceptedEmptyPayment (P : Primitives A V) (prevState : AcctState A V)
    (prevCoins : List (Coin V)) (wLoc : PaymentInitLocalInput A V) : Prop where
  owned : ∀ pair ∈ prevCoins.zip wLoc.acctCommRands,
    pair.1.essence.address = Commitment.commit P prevState.essence.id.serialize pair.2
  no_coins : wLoc.newCoins = []
  no_fee : wLoc.fee = 0
  unspent : P.verifyNonMembershipAndInsert prevState.spentAccum wLoc.newSpentAccum
    (prevCoins.map Coin.onChainId) wLoc.snmiProof = true
  committed : P.commitVerify wLoc.nullifierTxComm
    ((paymentInitTransaction prevState prevCoins wLoc (fundsWord prevState prevCoins)).hash P
      wLoc.txHashRandomness) wLoc.nullifierTxCommPk = true
  no_conflict : takesNoopBranch P wLoc = false
  on_chain : P.verifyIsPrefix (requiredPrefixes prevState prevCoins wLoc) wLoc.nullifierAccum
    wLoc.napProof = true

/-! ### The checks, one at a time -/

theorem ownsPrevCoins_iff {P : Primitives A V} {id : PublicKey} {prevCoins : List (Coin V)}
    {acctCommRands : List (Bytes 32)} :
    ownsPrevCoins P id prevCoins acctCommRands = true ↔
      ∀ pair ∈ prevCoins.zip acctCommRands,
        pair.1.essence.address = Commitment.commit P id.serialize pair.2 := by
  simp [ownsPrevCoins]

theorem coinsSum_isSome_iff {wLoc : PaymentInitLocalInput A V} :
    (∃ total, coinsSum wLoc = some total) ↔
      essenceTotal wLoc.newCoins < 2 ^ 64 ∧ wLoc.fee.toNat ≤ essenceTotal wLoc.newCoins := by
  constructor
  · rintro ⟨total, htotal⟩
    obtain ⟨hfit, hsum⟩ := coinsSum_eq_some.mp htotal
    exact ⟨hfit, by omega⟩
  · rintro ⟨hfit, hle⟩
    refine ⟨UInt64.ofNat (essenceTotal wLoc.newCoins - wLoc.fee.toNat), ?_⟩
    rw [coinsSum_eq_some, UInt64.toNat_ofNat_of_lt' (Nat.lt_of_le_of_lt (Nat.sub_le _ _) hfit)]
    omega

theorem paymentInit_of_first_checks_fail {P : Primitives A V} {profile : Profile}
    {prevState : AcctState A V} {prevCoins : List (Coin V)} {wLoc : PaymentInitLocalInput A V}
    (h : ¬ PassesFirstChecks P prevState prevCoins wLoc) :
    paymentInit P profile prevState prevCoins wLoc = .ok none := by
  unfold paymentInit
  cases howned : ownsPrevCoins P prevState.essence.id prevCoins wLoc.acctCommRands with
  | false => rfl
  | true =>
    cases htotal : coinsSum wLoc with
    | none => rfl
    | some total =>
      obtain ⟨hfit, hle⟩ := coinsSum_isSome_iff.mp ⟨total, htotal⟩
      exact absurd ⟨ownsPrevCoins_iff.mp howned, hfit, hle⟩ h

/-- Behind the first checks, an overflow of the funds is a panic in a debug build. -/
theorem paymentInit_overflow {P : Primitives A V} {prevState : AcctState A V}
    {prevCoins : List (Coin V)} {wLoc : PaymentInitLocalInput A V}
    (h : PassesFirstChecks P prevState prevCoins wLoc)
    (hoverflow : 2 ^ 64 ≤ prevState.essence.balance.toNat + coinTotal prevCoins) :
    ¬ ∃ result, paymentInit P .debug prevState prevCoins wLoc = .ok result := by
  rintro ⟨result, hresult⟩
  obtain ⟨total, htotal⟩ := coinsSum_isSome_iff.mpr ⟨h.newCoins_fit, h.fee_le⟩
  simp only [paymentInit, ownsPrevCoins_iff.mpr h.owned, htotal, Bool.not_true,
    Bool.false_eq_true, if_false, bind_eq_ok] at hresult
  obtain ⟨funds, hfunds, -⟩ := hresult
  obtain ⟨-, hexact⟩ := availableFunds_eq_ok.mp hfunds
  have hlt := hexact rfl
  omega

theorem availableFunds_eq_fundsWord {profile : Profile} {prevState : AcctState A V}
    {prevCoins : List (Coin V)}
    (hfits : prevState.essence.balance.toNat + coinTotal prevCoins < 2 ^ 64) :
    availableFunds profile prevState prevCoins = .ok (fundsWord prevState prevCoins) := by
  rw [availableFunds_eq_ok]
  exact ⟨UInt64.toNat_ofNat', fun _ => hfits⟩

theorem paymentInitOutputs_eq_error_iff {P : Primitives A V} {prevState : AcctState A V}
    {prevCoins : List (Coin V)} {wLoc : PaymentInitLocalInput A V} {newBalance : UInt64}
    {failure : Panic} :
    paymentInitOutputs P prevState prevCoins wLoc newBalance = .error failure ↔
      failure = .sliceIndex ∧ wLoc.newCoins = [] ∧
        P.commitVerify wLoc.nullifierTxComm
          (paymentInitPartial P prevState prevCoins wLoc newBalance).txHash
          wLoc.nullifierTxCommPk = true ∧
        takesNoopBranch P wLoc = false ∧
        P.verifyIsPrefix (requiredPrefixes prevState prevCoins wLoc) wLoc.nullifierAccum
          wLoc.napProof = true := by
  unfold paymentInitOutputs takesNoopBranch
  cases hcommit : P.commitVerify wLoc.nullifierTxComm
    (paymentInitPartial P prevState prevCoins wLoc newBalance).txHash wLoc.nullifierTxCommPk with
  | false => simp [hcommit]
  | true =>
    cases P.verifyDistinctElement wLoc.conditionalNav wLoc.nullifierAccum wLoc.napProof with
    | true => simp [hcommit]
    | false =>
      cases P.verifyIsPrefix (requiredPrefixes prevState prevCoins wLoc) wLoc.nullifierAccum
        wLoc.napProof with
      | false => simp [hcommit]
      | true => cases wLoc.newCoins <;> simp [hcommit, sliceFromOne, @eq_comm _ failure]

/-- When the funds fit, the only panic is the slice of an empty list of new coins. -/
theorem paymentInit_eq_error_iff {P : Primitives A V} {profile : Profile}
    {prevState : AcctState A V} {prevCoins : List (Coin V)} {wLoc : PaymentInitLocalInput A V}
    {failure : Panic}
    (hfits : prevState.essence.balance.toNat + coinTotal prevCoins < 2 ^ 64) :
    paymentInit P profile prevState prevCoins wLoc = .error failure ↔
      failure = .sliceIndex ∧ AcceptedEmptyPayment P prevState prevCoins wLoc := by
  rw [paymentInit_eq_iff (by simp)]
  constructor
  · rintro (⟨failure, total, -, -, habs, -⟩ | ⟨newBalance, hchecks, hout⟩)
    · -- the sum of the inputs is in range, so it does not overflow
      rw [availableFunds_eq_fundsWord hfits] at habs
      cases habs
    · -- the slice of an empty list: no coins, so no fee either, and the balance is the whole funds
      obtain ⟨rfl, hempty, hcommitted, hbranch, hprefixes⟩ :=
        paymentInitOutputs_eq_error_iff.mp hout
      have hfee := hchecks.fee_le
      have hbalance := hchecks.balance
      rw [hempty, essenceTotal_nil] at hfee hbalance
      have hsame : newBalance = fundsWord prevState prevCoins := by
        rw [← UInt64.toNat_inj, fundsWord, UInt64.toNat_ofNat']
        omega
      rw [hsame] at hcommitted
      refine ⟨rfl, ?_⟩
      exact
        { owned := ownsPrevCoins_iff.mp hchecks.owned
          no_coins := hempty
          no_fee := UInt64.toNat_inj.mp (by rw [UInt64.toNat_zero]; omega)
          unspent := hchecks.unspent
          committed := hcommitted
          no_conflict := hbranch
          on_chain := hprefixes }
  · rintro ⟨rfl, h⟩
    refine Or.inr ⟨fundsWord prevState prevCoins, ?_, paymentInitOutputs_eq_error_iff.mpr
      ⟨rfl, h.no_coins, h.committed, h.no_conflict, h.on_chain⟩⟩
    exact
      { owned := ownsPrevCoins_iff.mpr h.owned
        newCoins_fit := by rw [h.no_coins]; decide
        fee_le := by rw [h.no_fee]; exact Nat.zero_le _
        balance := by
          rw [h.no_coins, h.no_fee, fundsWord, UInt64.toNat_ofNat']
          rfl
        exact := fun _ => hfits
        unspent := h.unspent
        ordered := by rw [h.no_coins]; rfl }

/-! ### Where the predicate answers -/

theorem exact_balance_of_fits {P : Primitives A V} {profile : Profile}
    {prevState : AcctState A V} {prevCoins : List (Coin V)} {wLoc : PaymentInitLocalInput A V}
    {outputs : PaymentInitOutput A V × PaymentInitOutputFee V}
    (hfits : prevState.essence.balance.toNat + coinTotal prevCoins < 2 ^ 64)
    (hinit : paymentInit P profile prevState prevCoins wLoc = .ok (some outputs))
    (hbranch : takesNoopBranch P wLoc = false) :
    (outputs.1.acctStateEssence.balance.toNat : Int) =
      prevState.essence.balance.toNat + coinTotal prevCoins -
        (essenceTotal wLoc.newCoins - wLoc.fee.toNat) := by
  obtain ⟨newBalance, hchecks, hout⟩ := paymentInit_eq_some_iff.mp hinit
  have hbalance := hchecks.balance
  rw [Nat.mod_eq_of_lt hfits] at hbalance
  obtain ⟨-, ⟨hnoop, -⟩ | ⟨-, -, first, rest, -, rfl⟩⟩ := paymentInitOutputs_eq_some_iff.mp hout
  · rw [takesNoopBranch, hnoop] at hbranch
    cases hbranch
  · simp only [appliedOutputs]
    omega

/-- **Totality.**  The predicate answers cleanly exactly on the inputs whose available
    funds fit, or that fail an earlier check, and that are not an empty payment which
    every verifier accepts on the applied branch. -/
theorem rejectsCleanly_iff (P : Primitives A V) (prevState : AcctState A V)
    (prevCoins : List (Coin V)) (wLoc : PaymentInitLocalInput A V) :
    RejectsCleanly P prevState prevCoins wLoc ↔
      (PassesFirstChecks P prevState prevCoins wLoc →
        prevState.essence.balance.toNat + coinTotal prevCoins < 2 ^ 64) ∧
      ¬ AcceptedEmptyPayment P prevState prevCoins wLoc := by
  constructor
  · intro hclean
    have hfunds : PassesFirstChecks P prevState prevCoins wLoc →
        prevState.essence.balance.toNat + coinTotal prevCoins < 2 ^ 64 := by
      intro hfirst
      by_contra hoverflow
      exact paymentInit_overflow hfirst (Nat.not_lt.mp hoverflow) (hclean.answers .debug)
    refine ⟨hfunds, ?_⟩
    intro hempty
    have hfirst : PassesFirstChecks P prevState prevCoins wLoc := by
      refine ⟨hempty.owned, ?_, ?_⟩
      · rw [hempty.no_coins]
        decide
      · rw [hempty.no_fee]
        exact Nat.zero_le _
    obtain ⟨result, hresult⟩ := hclean.answers .debug
    rw [(paymentInit_eq_error_iff (hfunds hfirst)).mpr ⟨rfl, hempty⟩] at hresult
    cases hresult
  · rintro ⟨hfunds, hempty⟩
    by_cases hfirst : PassesFirstChecks P prevState prevCoins wLoc
    · have hfits := hfunds hfirst
      constructor
      · intro profile
        cases hinit : paymentInit P profile prevState prevCoins wLoc with
        | ok result => exact ⟨result, rfl⟩
        | error failure => exact absurd ((paymentInit_eq_error_iff hfits).mp hinit).2 hempty
      · intro hoverflow
        omega
      · intro profile outputs hinit hbranch
        exact exact_balance_of_fits hfits hinit hbranch
    · constructor
      · intro profile
        exact ⟨none, paymentInit_of_first_checks_fail hfirst⟩
      · intro _ profile
        exact paymentInit_of_first_checks_fail hfirst
      · intro profile outputs hinit
        rw [paymentInit_of_first_checks_fail hfirst] at hinit
        cases hinit

/-- A payment without new coins and fee panics, and so does one from a full balance
    that adds another unit. -/
theorem paymentInit_panics :
    paymentInit permissivePrimitives .release (sampleState 0) []
        { samplePayment 0 0 with newCoins := [] } = .error .sliceIndex ∧
      paymentInit permissivePrimitives .debug (sampleState 0xffffffffffffffff)
        [⟨⟨⟨zeroBytes 32⟩, 1, beBytes 2 1⟩, zeroBytes 32, zeroBytes 6, ⟨zeroBytes 32⟩⟩]
        (samplePayment 0 0) = .error .overflow ∧
      ¬ RejectsCleanly permissivePrimitives (sampleState 0) []
        { samplePayment 0 0 with newCoins := [] } := by
  have hslice : paymentInit permissivePrimitives .release (sampleState 0) []
      { samplePayment 0 0 with newCoins := [] } = .error .sliceIndex := rfl
  refine ⟨hslice, rfl, ?_⟩
  intro hclean
  obtain ⟨result, hresult⟩ := hclean.answers .release
  rw [hslice] at hresult
  cases hresult

end PartyMix
