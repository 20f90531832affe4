import PartyMix.Protocol

/-!
# What an accepted payment satisfies

`payment_init` is a sequence of checks.  `paymentInit_eq_some_iff` says exactly
which checks an accepted call passed and how the new balance is related to the
amounts, in exact naturals; `paymentInitOutputs_eq_some_iff` says which of the
two branches it took and what it returned.  Every result about payments starts
from these two and from `paymentFinalize_eq_some_iff`, and none of them unfolds
the predicates again.
-/

namespace PartyMix

open FixedBytes MachineWord

variable {A V : Type}

/-! ### Exact totals -/

def essenceTotal (essences : List CoinEssence) : Nat :=
  (essences.map fun essence => essence.amount.toNat).sum

def coinTotal (coins : List (Coin V)) : Nat := essenceTotal (coins.map Coin.essence)

@[simp] theorem essenceTotal_nil : essenceTotal [] = 0 := rfl

@[simp] theorem essenceTotal_cons (essence : CoinEssence) (rest : List CoinEssence) :
    essenceTotal (essence :: rest) = essence.amount.toNat + essenceTotal rest := by
  simp [essenceTotal]

theorem coinsSum_eq_some {wLoc : PaymentInitLocalInput A V} {total : UInt64} :
    coinsSum wLoc = some total ↔
      essenceTotal wLoc.newCoins < 2 ^ 64 ∧
        total.toNat + wLoc.fee.toNat = essenceTotal wLoc.newCoins := by
  have hmap : ((wLoc.newCoins.map CoinEssence.amount).map UInt64.toNat).sum =
      essenceTotal wLoc.newCoins := by
    simp [essenceTotal, Function.comp_def]
  simp only [coinsSum, Option.bind_eq_bind, Option.bind_eq_some_iff, foldlM_checkedAdd_eq_some,
    checkedSub_eq_some, hmap]
  constructor
  · rintro ⟨sum, hsum, htotal⟩
    have hlt := sum.toNat_lt
    simp only [UInt64.toNat_zero, Nat.zero_add] at hsum
    omega
  · rintro ⟨hlt, htotal⟩
    have hsum : (UInt64.ofNat (essenceTotal wLoc.newCoins)).toNat =
        essenceTotal wLoc.newCoins := UInt64.toNat_ofNat_of_lt' hlt
    refine ⟨UInt64.ofNat (essenceTotal wLoc.newCoins), ?_, ?_⟩
    · rw [hsum, UInt64.toNat_zero, Nat.zero_add]
    · rw [hsum]
      exact htotal

/-! ### The checks of `payment_init` -/

/-- Everything `payment_init` has established when it computes its outputs. -/
structure InitChecks (P : Primitives A V) (profile : Profile) (prevState : AcctState A V)
    (prevCoins : List (Coin V)) (wLoc : PaymentInitLocalInput A V) (newBalance : UInt64) :
    Prop where
  owned : ownsPrevCoins P prevState.essence.id prevCoins wLoc.acctCommRands = true
  newCoins_fit : essenceTotal wLoc.newCoins < 2 ^ 64
  fee_le : wLoc.fee.toNat ≤ essenceTotal wLoc.newCoins
  balance : newBalance.toNat + essenceTotal wLoc.newCoins =
    (prevState.essence.balance.toNat + coinTotal prevCoins) % 2 ^ 64 + wLoc.fee.toNat
  exact : profile = .debug → prevState.essence.balance.toNat + coinTotal prevCoins < 2 ^ 64
  unspent : P.verifyNonMembershipAndInsert prevState.spentAccum wLoc.newSpentAccum
    (prevCoins.map Coin.onChainId) wLoc.snmiProof = true
  ordered : checkIdcs (wLoc.newCoins.map CoinEssence.idx) = true

theorem availableFunds_eq_ok {profile : Profile} {prevState : AcctState A V}
    {prevCoins : List (Coin V)} {funds : UInt64} :
    availableFunds profile prevState prevCoins = .ok funds ↔
      funds.toNat = (prevState.essence.balance.toNat + coinTotal prevCoins) % 2 ^ 64 ∧
        (profile = .debug →
          prevState.essence.balance.toNat + coinTotal prevCoins < 2 ^ 64) := by
  have hmap : ((prevCoins.map fun coin => coin.essence.amount).map UInt64.toNat).sum =
      coinTotal prevCoins := by
    simp [coinTotal, essenceTotal, Function.comp_def]
  have hbalance : prevState.essence.balance.toNat = prevState.essence.balance.toNat % 2 ^ 64 :=
    (Nat.mod_eq_of_lt prevState.essence.balance.toNat_lt).symm
  have hlt := prevState.essence.balance.toNat_lt
  simp only [availableFunds, bind_eq_ok, sumU64_eq_ok, hmap]
  constructor
  · rintro ⟨sum, ⟨hsum, hfits⟩, hadd⟩
    exact (addU64_of_reduced hbalance (fun _ => hlt) hsum hfits).mp hadd
  · -- with the whole sum in range, so is the sum of the coins alone
    rintro ⟨hfunds, hexact⟩
    obtain ⟨sum, hsum⟩ := exists_reduced (coinTotal prevCoins)
    have hfits : profile = .debug → coinTotal prevCoins < 2 ^ 64 := by
      intro hdebug
      have hall := hexact hdebug
      omega
    exact ⟨sum, ⟨hsum, hfits⟩,
      (addU64_of_reduced hbalance (fun _ => hlt) hsum hfits).mpr ⟨hfunds, hexact⟩⟩

/-- A call that does not reject stops at the funds, behind the first two checks, or
    passes its checks for some new balance and returns what is computed from it. -/
theorem paymentInit_eq_iff {P : Primitives A V} {profile : Profile} {prevState : AcctState A V}
    {prevCoins : List (Coin V)} {wLoc : PaymentInitLocalInput A V}
    {result : Exec (Option (PaymentInitOutput A V × PaymentInitOutputFee V))}
    (hresult : result ≠ .ok none) :
    paymentInit P profile prevState prevCoins wLoc = result ↔
      (∃ failure total,
        ownsPrevCoins P prevState.essence.id prevCoins wLoc.acctCommRands = true ∧
          coinsSum wLoc = some total ∧
          availableFunds profile prevState prevCoins = .error failure ∧
          result = .error failure) ∨
        ∃ newBalance, InitChecks P profile prevState prevCoins wLoc newBalance ∧
          paymentInitOutputs P prevState prevCoins wLoc newBalance = result := by
  constructor
  · intro h
    unfold paymentInit at h
    split at h
    · exact absurd h.symm hresult
    next howned =>
    split at h
    · exact absurd h.symm hresult
    next total htotal =>
    -- the unchecked sum of the inputs is the one step that can panic before the outputs
    cases hfunds : availableFunds profile prevState prevCoins with
    | error failure =>
      rw [hfunds] at h
      exact Or.inl ⟨failure, total, by simpa using howned, htotal, rfl, h.symm⟩
    | ok funds =>
      rw [hfunds, ok_bind] at h
      split at h
      · exact absurd h.symm hresult
      next newBalance hbalance =>
      split at h
      · exact absurd h.symm hresult
      next hunspent =>
      split at h
      · exact absurd h.symm hresult
      next hordered =>
      obtain ⟨hfit, htotal⟩ := coinsSum_eq_some.mp htotal
      obtain ⟨hfunds, hexact⟩ := availableFunds_eq_ok.mp hfunds
      have hbalance := checkedSub_eq_some.mp hbalance
      refine Or.inr ⟨newBalance, ?_, h⟩
      exact
        { owned := by simpa using howned
          newCoins_fit := hfit
          fee_le := by omega
          balance := by omega
          exact := hexact
          unspent := by simpa using hunspent
          ordered := by simpa using hordered }
  · rintro (⟨failure, total, howned, htotal, hfunds, rfl⟩ | ⟨newBalance, hchecks, h⟩)
    · simp only [paymentInit, howned, htotal, hfunds, Bool.not_true, Bool.false_eq_true, if_false,
        error_bind]
    · -- every check passes; the two sums are the words of the exact ones
      have hfee := hchecks.fee_le
      have hfit := hchecks.newCoins_fit
      have hbalance := hchecks.balance
      obtain ⟨total, htotal⟩ : ∃ total : UInt64,
          total.toNat + wLoc.fee.toNat = essenceTotal wLoc.newCoins := by
        refine ⟨UInt64.ofNat (essenceTotal wLoc.newCoins - wLoc.fee.toNat), ?_⟩
        rw [UInt64.toNat_ofNat_of_lt' (Nat.lt_of_le_of_lt (Nat.sub_le _ _) hfit)]
        omega
      obtain ⟨funds, hfunds⟩ :=
        exists_reduced (prevState.essence.balance.toNat + coinTotal prevCoins)
      have hsub : checkedSub funds total = some newBalance := by
        rw [checkedSub_eq_some]
        omega
      simp only [paymentInit, hchecks.owned, coinsSum_eq_some.mpr ⟨hfit, htotal⟩,
        availableFunds_eq_ok.mpr ⟨hfunds, hchecks.exact⟩, ok_bind, hsub, hchecks.unspent,
        hchecks.ordered, Bool.not_true, Bool.false_eq_true, if_false, h]

/-- **The checks.**  A call returns outputs exactly when its checks hold for some
    new balance and the outputs are computed from that balance. -/
theorem paymentInit_eq_some_iff {P : Primitives A V} {profile : Profile}
    {prevState : AcctState A V} {prevCoins : List (Coin V)}
    {wLoc : PaymentInitLocalInput A V}
    {outputs : PaymentInitOutput A V × PaymentInitOutputFee V} :
    paymentInit P profile prevState prevCoins wLoc = .ok (some outputs) ↔
      ∃ newBalance, InitChecks P profile prevState prevCoins wLoc newBalance ∧
        paymentInitOutputs P prevState prevCoins wLoc newBalance = .ok (some outputs) := by
  rw [paymentInit_eq_iff (by simp)]
  constructor
  · rintro (⟨failure, total, -, -, -, habs⟩ | hchecks)
    · cases habs
    · exact hchecks
  · exact Or.inr

/-! ### The two branches -/

def takesNoopBranch (P : Primitives A V) (wLoc : PaymentInitLocalInput A V) : Bool :=
  P.verifyDistinctElement wLoc.conditionalNav wLoc.nullifierAccum wLoc.napProof

/-- **The branches.**  Accepted outputs are the no-op outputs when the conditional
    value is shown distinct, and otherwise the applied outputs of a nonempty list
    of new coins, whose first coin is dropped. -/
theorem paymentInitOutputs_eq_some_iff {P : Primitives A V} {prevState : AcctState A V}
    {prevCoins : List (Coin V)} {wLoc : PaymentInitLocalInput A V} {newBalance : UInt64}
    {outputs : PaymentInitOutput A V × PaymentInitOutputFee V} :
    paymentInitOutputs P prevState prevCoins wLoc newBalance = .ok (some outputs) ↔
      P.commitVerify wLoc.nullifierTxComm
          (paymentInitPartial P prevState prevCoins wLoc newBalance).txHash
          wLoc.nullifierTxCommPk = true ∧
        ((P.verifyDistinctElement wLoc.conditionalNav wLoc.nullifierAccum wLoc.napProof = true ∧
            outputs = noopOutputs prevState wLoc
              (paymentInitPartial P prevState prevCoins wLoc newBalance)) ∨
          (P.verifyDistinctElement wLoc.conditionalNav wLoc.nullifierAccum wLoc.napProof =
              false ∧
            P.verifyIsPrefix (requiredPrefixes prevState prevCoins wLoc) wLoc.nullifierAccum
              wLoc.napProof = true ∧
            ∃ first rest, wLoc.newCoins = first :: rest ∧
              outputs = appliedOutputs prevState wLoc newBalance
                (paymentInitPartial P prevState prevCoins wLoc newBalance) rest)) := by
  unfold paymentInitOutputs
  cases hcommit : P.commitVerify wLoc.nullifierTxComm
    (paymentInitPartial P prevState prevCoins wLoc newBalance).txHash wLoc.nullifierTxCommPk with
  | false => simp [hcommit]
  | true =>
    cases hdistinct : P.verifyDistinctElement wLoc.conditionalNav wLoc.nullifierAccum
      wLoc.napProof with
    | true => simp [hcommit, @eq_comm _ outputs]
    | false =>
      cases hprefix : P.verifyIsPrefix (requiredPrefixes prevState prevCoins wLoc)
        wLoc.nullifierAccum wLoc.napProof with
      | false => simp [hcommit]
      | true =>
        cases hcoins : wLoc.newCoins with
        -- `new_coins[1..]` panics on an empty list
        | nil => simp [hcommit, sliceFromOne]
        | cons first rest => simp [hcommit, sliceFromOne, @eq_comm _ outputs]

/-- Both outputs carry one partial output, which names the spent key, the
    accumulator value and a commitment to the transaction hash. -/
theorem paymentInit_partialOutput {P : Primitives A V} {profile : Profile}
    {prevState : AcctState A V} {prevCoins : List (Coin V)} {wLoc : PaymentInitLocalInput A V}
    {outputs : PaymentInitOutput A V × PaymentInitOutputFee V}
    (h : paymentInit P profile prevState prevCoins wLoc = .ok (some outputs)) :
    outputs.2.partialOutput = outputs.1.partialOutput ∧
      outputs.1.partialOutput.nullifierPk = prevState.essence.nullifierPk ∧
      outputs.1.partialOutput.nullifierAccum = wLoc.nullifierAccum ∧
      P.commitVerify outputs.1.partialOutput.nullifierTxComm outputs.1.partialOutput.txHash
        wLoc.nullifierTxCommPk = true := by
  obtain ⟨newBalance, -, hout⟩ := paymentInit_eq_some_iff.mp h
  obtain ⟨hcommit, ⟨-, rfl⟩ | ⟨-, -, first, rest, -, rfl⟩⟩ :=
    paymentInitOutputs_eq_some_iff.mp hout
  · exact ⟨rfl, rfl, rfl, hcommit⟩
  · exact ⟨rfl, rfl, rfl, hcommit⟩

/-! ### Finalization -/

theorem paymentFinalize_eq_some_iff {P : Primitives A V} {payInit : PaymentInitOutput A V}
    {wLoc : PaymentFinalizeLocalInput V} {result : AcctState A V × List (Coin V)} :
    paymentFinalize P payInit wLoc = some result ↔
      paymentFinalizeInternal P payInit.partialOutput wLoc = true ∧
        result = (⟨payInit.acctStateEssence, payInit.spentAccum, wLoc.nullifierAccum⟩,
          payInit.coinEssences.map (finalizedCoin payInit.partialOutput wLoc)) := by
  unfold paymentFinalize
  cases paymentFinalizeInternal P payInit.partialOutput wLoc <;> simp [eq_comm]

theorem paymentFinalizeFee_eq_some_iff {P : Primitives A V} {payInit : PaymentInitOutputFee V}
    {wLoc : PaymentFinalizeLocalInput V} {coin : Coin V} :
    paymentFinalizeFee P payInit wLoc = some coin ↔
      paymentFinalizeInternal P payInit.partialOutput wLoc = true ∧
        coin = finalizedCoin payInit.partialOutput wLoc
          ⟨wLoc.feeAcctComm, payInit.fee, CoinEssence.FEE_IDX⟩ := by
  unfold paymentFinalizeFee
  cases paymentFinalizeInternal P payInit.partialOutput wLoc <;> simp [finalizedCoin, eq_comm]

theorem paymentFinalizeInternal_eq_true_iff {P : Primitives A V}
    {partialOutput : PaymentInitOutputPartial V} {wLoc : PaymentFinalizeLocalInput V} :
    paymentFinalizeInternal P partialOutput wLoc = true ↔
      P.verifyIsPrefix [partialOutput.nullifierAccum] wLoc.nullifierAccum wLoc.napProof = true ∧
        P.verifyUnionMembership wLoc.nullifierAccum
          (partialOutput.nullifierPk, partialOutput.nullifierTxComm, wLoc.blockchainLoc,
            wLoc.feeAcctComm) wLoc.nmProof = true := by
  unfold paymentFinalizeInternal
  cases P.verifyIsPrefix [partialOutput.nullifierAccum] wLoc.nullifierAccum wLoc.napProof <;>
    simp

/-! ### A concrete payment -/

/-- A small stand-in for the hash: the bytes as a number in base 257. -/
def rollingHash (data : List UInt8) : Bytes 32 :=
  beBytes 32 (data.foldl (fun acc byte => (acc * 257 + byte.toNat) % 2 ^ 256) 0)

/-- Verifiers that accept everything and report no conflicting history. -/
def permissivePrimitives : Primitives AccValue ToSAccValue :=
  { sourcePrimitives rollingHash (fun _ => none) (fun _ => []) with
    verifyDistinctElement := fun _ _ _ => false }

def sampleKey : PublicKey := ⟨beBytes 32 1⟩

def sampleState (balance : UInt64) : AcctState AccValue ToSAccValue where
  essence := ⟨sampleKey, balance, sampleKey⟩
  spentAccum := ⟨zeroBytes 32⟩
  nullifierAccum := ⟨zeroBytes 32⟩

def samplePayment (amount fee : UInt64) : PaymentInitLocalInput AccValue ToSAccValue where
  acctId := sampleKey
  acctCommRands := []
  newCoins := [⟨⟨zeroBytes 32⟩, amount, beBytes 2 1⟩]
  fee := fee
  newSpentAccum := ⟨zeroBytes 32⟩
  snmiProof := []
  newNullifierPk := sampleKey
  conditionalNav := ⟨zeroBytes 32⟩
  txHashRandomness := zeroBytes 32
  nullifierTxCommPk := sampleKey
  nullifierTxComm := ⟨zeroBytes 32⟩
  nullifierAccum := ⟨zeroBytes 32⟩
  napProof := []

def sampleFinalize : PaymentFinalizeLocalInput ToSAccValue where
  feeAcctComm := ⟨zeroBytes 32⟩
  blockchainLoc := zeroBytes 6
  nullifierAccum := ⟨zeroBytes 32⟩
  nmProof := []
  napProof := []

end PartyMix
