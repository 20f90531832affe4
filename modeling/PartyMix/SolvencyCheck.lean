import PartyMix.Backends
import PartyMix.Pool

/-!
# When the solvency check tells the truth

`check_solvency` compares two plain sums.  Each is exact while it fits a word; above
that it stops the program when the crate is built with overflow checks and wraps
otherwise, so that an insolvent wallet may be reported solvent.
-/

namespace PartyMix

open FiniteMap FixedBytes MachineWord

variable {A V : Type}

/-- Every order of iteration gives a map's total. -/
theorem IterOrder.sum_values {κ ν : Type} (order : IterOrder κ ν) (measure : ν → Nat)
    (m : HashMap κ ν) : ((order.values m).map measure).sum = total measure m := by
  have hsum : ((order.values m).map measure).sum =
      (((order.entries m : Multiset (Sigma fun _ : κ => ν))).map
        fun entry => measure entry.2).sum := by
    simp [IterOrder.values, Function.comp_def]
  rw [hsum, order.entries_coe]
  rfl

/-! ### The two sums -/

section Sums

variable {profile : Profile} {userOrder : IterOrder (Bytes 32) LiabilityEntry}
  {accountOrder : IterOrder Uuid (PoolAccount A V)} {wallet : WalletState A V}

theorem totalLiabilities_eq_ok_iff {liabilities : UInt64} :
    wallet.totalLiabilities profile userOrder = .ok liabilities ↔
      liabilities.toNat = wallet.totalAvailable % 2 ^ 64 ∧
        (profile = .debug → wallet.totalAvailable < 2 ^ 64) := by
  have hsum : (((userOrder.values wallet.liabilities).map LiabilityEntry.available).map
      UInt64.toNat).sum = wallet.totalAvailable := by
    rw [List.map_map]
    exact userOrder.sum_values _ _
  rw [WalletState.totalLiabilities, sumU64_eq_ok, hsum]

theorem totalUnspentPoolValue_eq_ok_iff {value : UInt64} :
    wallet.totalUnspentPoolValue profile accountOrder = .ok value ↔
      value.toNat = (wallet.unspentTotal + wallet.balanceTotal) % 2 ^ 64 ∧
        (profile = .debug → wallet.unspentTotal + wallet.balanceTotal < 2 ^ 64) := by
  have hcoins : ((wallet.unspentCoins.map fun poolCoin => poolCoin.coin.essence.amount).map
      UInt64.toNat).sum = wallet.unspentTotal := by
    rw [List.map_map]
    rfl
  have hbalances : (((accountOrder.values wallet.poolAccounts).map
      fun account => account.state.essence.balance).map UInt64.toNat).sum =
        wallet.balanceTotal := by
    rw [List.map_map]
    exact accountOrder.sum_values _ _
  simp only [WalletState.totalUnspentPoolValue, bind_eq_ok, sumU64_eq_ok, hcoins, hbalances]
  constructor
  · rintro ⟨coins, ⟨hcoins, hcoinsFit⟩, balances, ⟨hbalances, hbalancesFit⟩, hadd⟩
    exact (addU64_of_reduced hcoins hcoinsFit hbalances hbalancesFit).mp hadd
  · rintro ⟨hvalue, hfit⟩
    obtain ⟨coins, hcoins⟩ := exists_reduced wallet.unspentTotal
    obtain ⟨balances, hbalances⟩ := exists_reduced wallet.balanceTotal
    have hcoinsFit : profile = .debug → wallet.unspentTotal < 2 ^ 64 := by
      intro hdebug
      have hlt := hfit hdebug
      omega
    have hbalancesFit : profile = .debug → wallet.balanceTotal < 2 ^ 64 := by
      intro hdebug
      have hlt := hfit hdebug
      omega
    exact ⟨coins, ⟨hcoins, hcoinsFit⟩, balances, ⟨hbalances, hbalancesFit⟩,
      (addU64_of_reduced hcoins hcoinsFit hbalances hbalancesFit).mpr ⟨hvalue, hfit⟩⟩

end Sums

/-! ### The check -/

/-- Both sums are exact, and the check returns `Ok` for a solvent wallet and for no
    other. -/
structure TellsSolvency (profile : Profile) (userOrder : IterOrder (Bytes 32) LiabilityEntry)
    (accountOrder : IterOrder Uuid (PoolAccount A V)) (pool : PoolManager)
    (wallet : WalletState A V) : Prop where
  liabilities_exact : ∃ liabilities, wallet.totalLiabilities profile userOrder = .ok liabilities ∧
    liabilities.toNat = wallet.totalAvailable
  pool_exact : ∃ value, wallet.totalUnspentPoolValue profile accountOrder = .ok value ∧
    value.toNat = wallet.unspentTotal + wallet.balanceTotal
  verdict : ∃ result, pool.checkSolvency profile userOrder accountOrder wallet = .ok result ∧
    (result = .ok () ↔ wallet.totalAvailable ≤ wallet.unspentTotal + wallet.balanceTotal)

/-- Both sums fit a word. -/
def TotalsFit (wallet : WalletState A V) : Prop :=
  wallet.totalAvailable < 2 ^ 64 ∧ wallet.unspentTotal + wallet.balanceTotal < 2 ^ 64

section Check

variable {profile : Profile} {userOrder : IterOrder (Bytes 32) LiabilityEntry}
  {accountOrder : IterOrder Uuid (PoolAccount A V)} {pool : PoolManager}
  {wallet : WalletState A V}

/-- The check compares the two sums it is given. -/
theorem checkSolvency_of_sums (pool : PoolManager) {liabilities value : UInt64}
    (hliabilities : wallet.totalLiabilities profile userOrder = .ok liabilities)
    (hvalue : wallet.totalUnspentPoolValue profile accountOrder = .ok value) :
    ∃ result, pool.checkSolvency profile userOrder accountOrder wallet = .ok result ∧
      (result = .ok () ↔ liabilities.toNat ≤ value.toNat) := by
  unfold PoolManager.checkSolvency
  rw [hliabilities, hvalue]
  simp only [ok_bind]
  by_cases hshort : liabilities > value
  · have hlt := UInt64.lt_iff_toNat_lt.mp hshort
    rw [if_pos hshort]
    refine ⟨_, rfl, ?_⟩
    simp [hlt]
  · have hle := UInt64.le_iff_toNat_le.mp (UInt64.not_lt.mp hshort)
    rw [if_neg hshort]
    refine ⟨_, rfl, ?_⟩
    simp [hle]

theorem sums_of_checkSolvency {result : Except PoolError Unit}
    (h : pool.checkSolvency profile userOrder accountOrder wallet = .ok result) :
    (∃ liabilities, wallet.totalLiabilities profile userOrder = .ok liabilities) ∧
      ∃ value, wallet.totalUnspentPoolValue profile accountOrder = .ok value := by
  obtain ⟨liabilities, hliabilities, h⟩ := bind_eq_ok.mp h
  obtain ⟨value, hvalue, -⟩ := bind_eq_ok.mp h
  exact ⟨⟨liabilities, hliabilities⟩, value, hvalue⟩

/-- The sums are there, reduced to a word, when overflow checks do not stop them. -/
theorem exists_sums (profile : Profile) (userOrder : IterOrder (Bytes 32) LiabilityEntry)
    (accountOrder : IterOrder Uuid (PoolAccount A V)) (wallet : WalletState A V)
    (hfit : profile = .debug → TotalsFit wallet) :
    ∃ liabilities value, wallet.totalLiabilities profile userOrder = .ok liabilities ∧
      liabilities.toNat = wallet.totalAvailable % 2 ^ 64 ∧
      wallet.totalUnspentPoolValue profile accountOrder = .ok value ∧
      value.toNat = (wallet.unspentTotal + wallet.balanceTotal) % 2 ^ 64 := by
  obtain ⟨liabilities, hleft⟩ := exists_reduced wallet.totalAvailable
  obtain ⟨value, hright⟩ := exists_reduced (wallet.unspentTotal + wallet.balanceTotal)
  refine ⟨_, _, totalLiabilities_eq_ok_iff.mpr ⟨hleft, ?_⟩, hleft,
    totalUnspentPoolValue_eq_ok_iff.mpr ⟨hright, ?_⟩, hright⟩
  · intro hdebug
    exact (hfit hdebug).1
  · intro hdebug
    exact (hfit hdebug).2

end Check

/-- **The truth of the check.**  The check tells whether the wallet is solvent exactly
    when the available balances, and the coins with the accounts, add up to a word.
    With overflow checks it returns for those wallets only; without them it compares
    what is left of the sums in a word. -/
theorem tellsSolvency_iff (pool : PoolManager) (wallet : WalletState A V)
    (userOrder : IterOrder (Bytes 32) LiabilityEntry)
    (accountOrder : IterOrder Uuid (PoolAccount A V)) :
    (∀ profile, TellsSolvency profile userOrder accountOrder pool wallet ↔ TotalsFit wallet) ∧
      ((∃ result, pool.checkSolvency .debug userOrder accountOrder wallet = .ok result) ↔
        TotalsFit wallet) ∧
      ∃ result, pool.checkSolvency .release userOrder accountOrder wallet = .ok result ∧
        (result = .ok () ↔ wallet.totalAvailable % 2 ^ 64 ≤
          (wallet.unspentTotal + wallet.balanceTotal) % 2 ^ 64) := by
  refine ⟨?_, ⟨?_, ?_⟩, ?_⟩
  · intro profile
    constructor
    · -- the exact totals are words
      rintro ⟨⟨liabilities, -, hliabilities⟩, ⟨value, -, hvalue⟩, -⟩
      exact ⟨hliabilities ▸ liabilities.toNat_lt, hvalue ▸ value.toNat_lt⟩
    · intro hfit
      obtain ⟨liabilities, value, hleft, hliabilities, hright, hvalue⟩ :=
        exists_sums profile userOrder accountOrder wallet fun _ => hfit
      rw [Nat.mod_eq_of_lt hfit.1] at hliabilities
      rw [Nat.mod_eq_of_lt hfit.2] at hvalue
      obtain ⟨result, hresult, hverdict⟩ := checkSolvency_of_sums pool hleft hright
      rw [hliabilities, hvalue] at hverdict
      exact ⟨⟨liabilities, hleft, hliabilities⟩, ⟨value, hright, hvalue⟩, result, hresult,
        hverdict⟩
  · -- a debug build that answers has added both totals without an overflow
    rintro ⟨result, hresult⟩
    obtain ⟨⟨liabilities, hleft⟩, value, hright⟩ := sums_of_checkSolvency hresult
    exact ⟨(totalLiabilities_eq_ok_iff.mp hleft).2 rfl,
      (totalUnspentPoolValue_eq_ok_iff.mp hright).2 rfl⟩
  · intro hfit
    obtain ⟨liabilities, value, hleft, -, hright, -⟩ :=
      exists_sums .debug userOrder accountOrder wallet fun _ => hfit
    obtain ⟨result, hresult, -⟩ := checkSolvency_of_sums pool hleft hright
    exact ⟨result, hresult⟩
  · -- a release build compares what is left of the totals after wrapping
    obtain ⟨liabilities, value, hleft, hliabilities, hright, hvalue⟩ :=
      exists_sums .release userOrder accountOrder wallet fun habs => nomatch habs
    obtain ⟨result, hresult, hverdict⟩ := checkSolvency_of_sums pool hleft hright
    rw [hliabilities, hvalue] at hverdict
    exact ⟨result, hresult, hverdict⟩

/-- A credit of 2 ^ 63 to each of two users, and no coin. -/
def insolventWallet : WalletState AccValue ToSAccValue :=
  ((WalletState.new ⟨zeroBytes 32⟩).creditUser (beBytes 32 1) 0x8000000000000000).creditUser
    (beBytes 32 2) 0x8000000000000000

/-- The wallet owes 2 ^ 64 and holds nothing; the check stops the program with
    overflow checks and reports solvency without them. -/
theorem insolventWallet_reported_solvent :
    insolventWallet.totalAvailable = 2 ^ 64 ∧
      insolventWallet.unspentTotal + insolventWallet.balanceTotal = 0 ∧
      (¬ ∃ result, (⟨MixerConfig.default⟩ : PoolManager).checkSolvency .debug
        IterOrder.unspecified IterOrder.unspecified insolventWallet = .ok result) ∧
      (⟨MixerConfig.default⟩ : PoolManager).checkSolvency .release
        IterOrder.unspecified IterOrder.unspecified insolventWallet = .ok (.ok ()) := by
  have havailable : insolventWallet.totalAvailable = 2 ^ 64 := by decide +kernel
  have hheld : insolventWallet.unspentTotal + insolventWallet.balanceTotal = 0 := by decide +kernel
  refine ⟨havailable, hheld, ?_, ?_⟩
  · rintro ⟨result, hresult⟩
    obtain ⟨⟨liabilities, hliabilities⟩, -⟩ := sums_of_checkSolvency hresult
    have hlt := (totalLiabilities_eq_ok_iff.mp hliabilities).2 rfl
    rw [havailable] at hlt
    exact Nat.lt_irrefl _ hlt
  · -- the liabilities wrap to zero
    obtain ⟨liabilities, value, hleft, hliabilities, hright, -⟩ :=
      exists_sums .release IterOrder.unspecified IterOrder.unspecified insolventWallet
        fun habs => nomatch habs
    obtain ⟨result, hresult, hverdict⟩ := checkSolvency_of_sums ⟨MixerConfig.default⟩ hleft hright
    have hwrapped : liabilities.toNat = 0 := by
      rw [hliabilities, havailable, Nat.mod_self]
    have hok : result = .ok () := hverdict.mpr (by omega)
    rw [hresult, hok]

end PartyMix
