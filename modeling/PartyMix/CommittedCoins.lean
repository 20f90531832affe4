import PartyMix.MintedCoins

/-!
# The coins a transaction commits to and the coins it outputs

`payment_init` reads the list of new coins four times: the amount check and the
transaction hash take all of it, the index loop compares neighbours and tests every
index but the first, and the applied branch outputs the slice `new_coins[1..]`.
So the first coin is hashed and paid for and never comes out, and a single coin may
carry the fee index.
-/

namespace PartyMix

open FixedBytes MachineWord

variable {A V : Type}

/-- Every index is above its predecessor's, and none is the fee index. -/
def IdcsIncreasing (coins : List CoinEssence) : Prop :=
  (coins.Pairwise fun left right => left.idx.toList < right.idx.toList) ∧
    ∀ coin ∈ coins, coin.idx ≠ CoinEssence.FEE_IDX

/-- The coins of the output are the coins that are hashed and counted, in the order
    of their indices. -/
structure OutputsCommittedCoins (wLoc : PaymentInitLocalInput A V)
    (out : PaymentInitOutput A V) : Prop where
  committed : out.coinEssences = wLoc.newCoins
  increasing : IdcsIncreasing wLoc.newCoins

/-- No index is above the fee index. -/
theorem not_feeIdx_lt (idx : Bytes 2) : ¬ CoinEssence.FEE_IDX.toList < idx.toList := by
  obtain ⟨digits, hlength⟩ := idx
  rcases digits with _ | ⟨high, _ | ⟨low, rest⟩⟩
  · cases hlength
  · cases hlength
  · have hrest : rest = [] := by simpa using hlength
    have hhigh := high.toNat_lt
    have hlow := low.toNat_lt
    intro habs
    simp [CoinEssence.FEE_IDX, List.Vector.toList, List.cons_lt_cons_iff, hrest,
      UInt8.lt_iff_toNat_lt] at habs
    omega

/-- The loop leaves one list of indices out of order: a single coin with the fee
    index. -/
theorem idcsIncreasing_iff {coins : List CoinEssence}
    (h : checkIdcs (coins.map CoinEssence.idx) = true) :
    IdcsIncreasing coins ↔ ∀ coin, coins = [coin] → coin.idx ≠ CoinEssence.FEE_IDX := by
  have hpairwise := List.pairwise_map.mp (checkIdcs_increasing h)
  constructor
  · rintro hincreasing coin rfl
    exact hincreasing.2 coin (List.mem_singleton_self coin)
  · -- only a single coin has no neighbour to be compared with
    intro hsingle
    refine ⟨hpairwise, ?_⟩
    rcases coins with _ | ⟨first, _ | ⟨second, rest⟩⟩
    · intro coin hcoin
      cases hcoin
    · intro coin hcoin
      rw [List.mem_singleton.mp hcoin]
      exact hsingle first rfl
    · intro coin hcoin
      rcases List.mem_cons.mp hcoin with rfl | hrest
      · -- the first index is below the second
        intro hfee
        have hlt := List.rel_of_pairwise_cons hpairwise (List.mem_cons_self (a := second))
        rw [hfee] at hlt
        exact not_feeIdx_lt second.idx hlt
      · apply checkIdcs_not_fee h
        exact List.mem_map_of_mem hrest

/-- **Outputs.**  An accepted payment on the applied branch never outputs the coins
    it commits to: the first of them is missing.  Their indices are increasing and
    none is the fee index, unless the payment has one coin only, at the fee index. -/
theorem outputs_never_committed (P : Primitives A V) (profile : Profile)
    (prevState : AcctState A V) (prevCoins : List (Coin V)) (wLoc : PaymentInitLocalInput A V)
    (out : PaymentInitOutput A V) (feeOut : PaymentInitOutputFee V)
    (hinit : paymentInit P profile prevState prevCoins wLoc = .ok (some (out, feeOut)))
    (happlied : takesNoopBranch P wLoc = false) :
    ¬ OutputsCommittedCoins wLoc out ∧
      (∃ first, wLoc.newCoins = first :: out.coinEssences) ∧
      (IdcsIncreasing wLoc.newCoins ↔
        ∀ coin, wLoc.newCoins = [coin] → coin.idx ≠ CoinEssence.FEE_IDX) := by
  obtain ⟨newBalance, hchecks, hout⟩ := paymentInit_eq_some_iff.mp hinit
  obtain ⟨-, hbranch⟩ := paymentInitOutputs_eq_some_iff.mp hout
  have hdropped : ∃ first, wLoc.newCoins = first :: out.coinEssences := by
    rcases hbranch with ⟨hnoop, -⟩ | ⟨-, -, first, rest, hcoins, heq⟩
    · rw [takesNoopBranch, hnoop] at happlied
      cases happlied
    · obtain ⟨rfl, -⟩ := Prod.mk.inj heq
      exact ⟨first, hcoins⟩
  refine ⟨?_, hdropped, idcsIncreasing_iff hchecks.ordered⟩
  intro hsame
  obtain ⟨first, hcoins⟩ := hdropped
  have hlength := congrArg List.length hcoins
  rw [hsame.committed, List.length_cons] at hlength
  omega

/-- A payment of one coin of 5 at the given index. -/
def indexedPayment (idx : Bytes 2) : PaymentInitLocalInput AccValue ToSAccValue :=
  { samplePayment 5 0 with newCoins := [⟨⟨zeroBytes 32⟩, 5, idx⟩] }

/-- The coin at index 1 is paid for and not output, and a coin at the fee index is
    accepted. -/
theorem indexedPayment_loses_coin : ∃ out feeOut feeIdxOutputs,
    paymentInit permissivePrimitives .debug (sampleState 9) [] (indexedPayment (beBytes 2 1)) =
        .ok (some (out, feeOut)) ∧
      takesNoopBranch permissivePrimitives (indexedPayment (beBytes 2 1)) = false ∧
      out.coinEssences ≠ (indexedPayment (beBytes 2 1)).newCoins ∧
      paymentInit permissivePrimitives .debug (sampleState 9) []
        (indexedPayment CoinEssence.FEE_IDX) = .ok (some feeIdxOutputs) ∧
      ¬ IdcsIncreasing (indexedPayment CoinEssence.FEE_IDX).newCoins := by
  refine ⟨_, _, _, rfl, rfl, (List.cons_ne_nil _ _).symm, rfl, ?_⟩
  intro hincreasing
  exact hincreasing.2 _ (List.mem_singleton_self _) rfl

theorem indexedPayment_not_committed : ∃ out,
    ¬ OutputsCommittedCoins (indexedPayment (beBytes 2 1)) out := by
  obtain ⟨out, feeOut, hinit⟩ : ∃ out feeOut, paymentInit permissivePrimitives .debug
      (sampleState 9) [] (indexedPayment (beBytes 2 1)) = .ok (some (out, feeOut)) :=
    ⟨_, _, rfl⟩
  exact ⟨out, (outputs_never_committed permissivePrimitives .debug (sampleState 9) []
    (indexedPayment (beBytes 2 1)) out feeOut hinit rfl).1⟩

end PartyMix
