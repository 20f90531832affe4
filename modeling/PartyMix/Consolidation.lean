import PartyMix.ProofRequests

/-!
# What a consolidation leaves behind

`consolidate_into_pool` takes a coin out of the wallet before it looks for an
account to put it in, and then writes no account.  So a call that fails for want of
an account has lost the coin and its proof, and a call that succeeds has taken the
whole amount of the coin out of the pool.
-/

namespace PartyMix

open FixedBytes MachineWord

variable {A V M : Type} {B : PcdBackend A V} {mgr : ToSAccM M V}
  {order : IterOrder Uuid (PoolAccount A V)} {handler : DepositHandler} {node : MixerNode B M}
  {wallet next : WalletState A V} {coinId : CoinIdOnChain}

/-! ### Primary accounts -/

def HasPrimaryAccount (wallet : WalletState A V) : Prop :=
  ∃ id account, wallet.poolAccounts.lookup id = some account ∧ account.isPrimary = true

/-- Whether a primary account is found does not depend on the order. -/
theorem primaryPoolAccount_isSome_iff (order : IterOrder Uuid (PoolAccount A V))
    (wallet : WalletState A V) :
    (∃ account, wallet.primaryPoolAccount order = some account) ↔ HasPrimaryAccount wallet := by
  rw [WalletState.primaryPoolAccount, ← Option.isSome_iff_exists, List.find?_isSome]
  constructor
  · rintro ⟨account, hmem, hprimary⟩
    obtain ⟨id, hid⟩ := (order.mem_values _).mp hmem
    exact ⟨id, account, hid, hprimary⟩
  · rintro ⟨id, account, hid, hprimary⟩
    exact ⟨account, (order.mem_values _).mpr ⟨id, hid⟩, hprimary⟩

/-! ### The outcomes of a call -/

section Held

variable {before after : List (PoolCoin V)} {poolCoin : PoolCoin V}

theorem consolidateIntoPool_of_primary (hfirst : wallet.HoldsFirst coinId before poolCoin after)
    (hprimary : HasPrimaryAccount wallet) :
    consolidateIntoPool mgr order handler node wallet coinId =
      (.ok (), { wallet with unspentCoins := before ++ after }) := by
  rcases (primaryPoolAccount_isSome_iff order wallet).mpr hprimary with ⟨account, haccount⟩
  rw [consolidateIntoPool_of_holdsFirst hfirst, haccount]

theorem consolidateIntoPool_of_no_primary
    (hfirst : wallet.HoldsFirst coinId before poolCoin after)
    (hnone : ¬ HasPrimaryAccount wallet) :
    consolidateIntoPool mgr order handler node wallet coinId =
      (.error (.pool .noPrimaryAccount), { wallet with unspentCoins := before ++ after }) := by
  have haccount : wallet.primaryPoolAccount order = none := by
    rw [← primaryPoolAccount_isSome_iff order wallet, ← Option.isSome_iff_exists] at hnone
    simpa using hnone
  rw [consolidateIntoPool_of_holdsFirst hfirst, haccount]

end Held

theorem consolidateIntoPool_eq_ok_iff :
    consolidateIntoPool mgr order handler node wallet coinId = (.ok (), next) ↔
      HasPrimaryAccount wallet ∧ ∃ before poolCoin after,
        wallet.HoldsFirst coinId before poolCoin after ∧
          next = { wallet with unspentCoins := before ++ after } := by
  constructor
  · intro h
    by_cases hheld : coinId ∈ wallet.alreadyReceivedIds
    · obtain ⟨before, poolCoin, after, hfirst⟩ := WalletState.exists_holdsFirst hheld
      by_cases hprimary : HasPrimaryAccount wallet
      · rw [consolidateIntoPool_of_primary hfirst hprimary] at h
        exact ⟨hprimary, before, poolCoin, after, hfirst, (Prod.mk.inj h).2.symm⟩
      · rw [consolidateIntoPool_of_no_primary hfirst hprimary] at h
        cases h
    · rw [consolidateIntoPool_of_notMem hheld] at h
      cases h
  · rintro ⟨hprimary, before, poolCoin, after, hfirst, rfl⟩
    exact consolidateIntoPool_of_primary hfirst hprimary

/-- **Failed consolidations.**  A call that fails leaves the wallet as it was exactly
    when the coin is not held or there is a primary account; otherwise the first coin
    with the id is lost with its proof. -/
theorem failed_consolidation_keeps_wallet_iff (mgr : ToSAccM M V)
    (order : IterOrder Uuid (PoolAccount A V)) (handler : DepositHandler) (node : MixerNode B M)
    (wallet : WalletState A V) (coinId : CoinIdOnChain) :
    (∀ error next, consolidateIntoPool mgr order handler node wallet coinId =
        (.error error, next) → next = wallet) ↔
      coinId ∉ wallet.alreadyReceivedIds ∨ HasPrimaryAccount wallet := by
  by_cases hheld : coinId ∈ wallet.alreadyReceivedIds
  · obtain ⟨before, poolCoin, after, hfirst⟩ := WalletState.exists_holdsFirst hheld
    by_cases hprimary : HasPrimaryAccount wallet
    · -- the call returns `Ok`, and only an error has to keep the wallet
      refine iff_of_true ?_ (Or.inr hprimary)
      intro error next h
      rw [consolidateIntoPool_of_primary hfirst hprimary] at h
      cases h
    · -- the coin is taken out before the missing account is noticed
      apply iff_of_false
      · intro hkept
        have hsame := hkept _ _ (consolidateIntoPool_of_no_primary hfirst hprimary)
        have hlength := congrArg (fun wallet => wallet.unspentCoins.length) hsame
        simp [hfirst.coins] at hlength
      · simp [hheld, hprimary]
  · -- an unknown coin is refused first
    refine iff_of_true ?_ (Or.inl hheld)
    intro error next h
    rw [consolidateIntoPool_of_notMem hheld] at h
    exact (Prod.mk.inj h).2.symm

def lostHandler : DepositHandler := ⟨⟨MixerConfig.default⟩, zeroBytes 32, zeroBytes 32⟩

def heldCoin : PoolCoin ToSAccValue :=
  ⟨⟨⟨⟨zeroBytes 32⟩, 600, beBytes 2 1⟩, zeroBytes 32, zeroBytes 6, ⟨zeroBytes 32⟩⟩, mockPcdPrefix,
    Uuid.nil⟩

/-- The wallet holds one coin and no account. -/
def heldWallet : WalletState AccValue ToSAccValue :=
  (WalletState.new ⟨zeroBytes 32⟩).addUnspentCoin heldCoin

/-- Without an account the call fails and the coin is gone, so that a second call
    does not find it. -/
theorem heldCoin_lost : ∃ next,
    consolidateIntoPool (.source rollingHash) IterOrder.unspecified lostHandler
        (poolNode mockPcd) heldWallet heldCoin.coin.onChainId =
      (.error (.pool .noPrimaryAccount), next) ∧
    heldWallet.unspentCoins = [heldCoin] ∧ next.unspentCoins = [] ∧
    consolidateIntoPool (.source rollingHash) IterOrder.unspecified lostHandler
        (poolNode mockPcd) next heldCoin.coin.onChainId = (.error .invalidProof, next) := by
  have hfirst : heldWallet.HoldsFirst heldCoin.coin.onChainId [] heldCoin [] :=
    ⟨rfl, rfl, List.forall_mem_nil _⟩
  have hnone : ¬ HasPrimaryAccount heldWallet := by
    rintro ⟨id, account, hid, -⟩
    cases hid
  exact ⟨_, consolidateIntoPool_of_no_primary hfirst hnone, rfl, rfl,
    consolidateIntoPool_of_notMem List.not_mem_nil⟩

/-! ### The value of the pool -/

/-- What a consolidation of the coin with the id keeps, up to a fee.  `entered` is `value`
    read as a clause about the accounts, and follows from it by arithmetic. -/
structure PoolValueKept (fee : UInt64) (coinId : CoinIdOnChain) (wallet next : WalletState A V) :
    Prop where
  value : wallet.unspentTotal + wallet.balanceTotal ≤
    next.unspentTotal + next.balanceTotal + fee.toNat
  liabilities : next.liabilities = wallet.liabilities
  coins : ∃ before poolCoin after, wallet.HoldsFirst coinId before poolCoin after ∧
    next.unspentCoins = before ++ after
  accounts : ∀ id account, account.isPrimary = false →
    (next.poolAccounts.lookup id = some account ↔ wallet.poolAccounts.lookup id = some account)
  /-- What leaves the list of coins enters an account. -/
  entered : wallet.unspentTotal ≤
    next.unspentTotal + (next.balanceTotal - wallet.balanceTotal) + fee.toNat

theorem unspentTotal_of_holdsFirst {before after : List (PoolCoin V)} {poolCoin : PoolCoin V}
    (h : wallet.HoldsFirst coinId before poolCoin after) :
    wallet.unspentTotal =
      ({ wallet with unspentCoins := before ++ after } : WalletState A V).unspentTotal +
        poolCoin.coin.essence.amount.toNat := by
  simp only [WalletState.unspentTotal, h.coins, List.map_append, List.map_cons, List.sum_append,
    List.sum_cons]
  omega

/-- Taking the coin out keeps the value of the pool exactly when the fee is worth it. -/
theorem poolValueKept_iff {fee : UInt64} {before after : List (PoolCoin V)}
    {poolCoin : PoolCoin V} (hfirst : wallet.HoldsFirst coinId before poolCoin after) :
    PoolValueKept fee coinId wallet { wallet with unspentCoins := before ++ after } ↔
      poolCoin.coin.essence.amount ≤ fee := by
  have hvalue := unspentTotal_of_holdsFirst hfirst
  have hbalance : ({ wallet with unspentCoins := before ++ after } :
      WalletState A V).balanceTotal = wallet.balanceTotal := rfl
  rw [UInt64.le_iff_toNat_le]
  constructor
  · intro hkept
    have hle := hkept.value
    omega
  · intro hle
    refine ⟨by omega, rfl, ⟨before, poolCoin, after, hfirst, rfl⟩, fun _ _ _ => Iff.rfl, ?_⟩
    omega

/-- **The value of the pool.**  A call that succeeds keeps the value of the pool, up to
    the publisher fee, exactly when the coin is worth at most that fee: the account is
    never written, and the whole amount of the coin is gone. -/
theorem consolidation_keeps_value_iff (mgr : ToSAccM M V)
    (order : IterOrder Uuid (PoolAccount A V)) (handler : DepositHandler) (node : MixerNode B M)
    (wallet : WalletState A V) (coinId : CoinIdOnChain) :
    ((∀ next, consolidateIntoPool mgr order handler node wallet coinId = (.ok (), next) →
        PoolValueKept handler.pool.config.publisherFee coinId wallet next) ↔
      (HasPrimaryAccount wallet → ∀ before poolCoin after,
        wallet.HoldsFirst coinId before poolCoin after →
          poolCoin.coin.essence.amount ≤ handler.pool.config.publisherFee)) ∧
    ∀ next, consolidateIntoPool mgr order handler node wallet coinId = (.ok (), next) →
      next.poolAccounts = wallet.poolAccounts ∧
        ∃ before poolCoin after, wallet.HoldsFirst coinId before poolCoin after ∧
          wallet.unspentTotal = next.unspentTotal + poolCoin.coin.essence.amount.toNat := by
  constructor
  · constructor
    · intro hkept hprimary before poolCoin after hfirst
      apply (poolValueKept_iff hfirst).mp
      exact hkept _ (consolidateIntoPool_of_primary hfirst hprimary)
    · intro hcheap next h
      obtain ⟨hprimary, before, poolCoin, after, hfirst, rfl⟩ := consolidateIntoPool_eq_ok_iff.mp h
      exact (poolValueKept_iff hfirst).mpr (hcheap hprimary before poolCoin after hfirst)
  · intro next h
    obtain ⟨-, before, poolCoin, after, hfirst, rfl⟩ := consolidateIntoPool_eq_ok_iff.mp h
    exact ⟨rfl, before, poolCoin, after, hfirst, unspentTotal_of_holdsFirst hfirst⟩

/-- The wallet holds one coin and the account of `poolWallet`. -/
def fundedWallet : WalletState AccValue ToSAccValue := poolWallet.addUnspentCoin heldCoin

/-- A coin of 600 is consolidated at a fee of 500, and all of it is gone. -/
theorem heldCoin_vanishes : ∃ next,
    consolidateIntoPool (.source rollingHash) IterOrder.unspecified lostHandler
        (poolNode mockPcd) fundedWallet heldCoin.coin.onChainId = (.ok (), next) ∧
      fundedWallet.unspentTotal + fundedWallet.balanceTotal = 5600 ∧
      next.unspentTotal + next.balanceTotal = 5000 ∧
      ¬ PoolValueKept lostHandler.pool.config.publisherFee heldCoin.coin.onChainId fundedWallet
        next := by
  have hfirst : fundedWallet.HoldsFirst heldCoin.coin.onChainId [] heldCoin [] :=
    ⟨rfl, rfl, List.forall_mem_nil _⟩
  have hprimary : HasPrimaryAccount fundedWallet :=
    ⟨Uuid.nil, poolAccount, Finmap.lookup_singleton_eq, rfl⟩
  refine ⟨_, consolidateIntoPool_of_primary hfirst hprimary, rfl, rfl, ?_⟩
  rw [poolValueKept_iff hfirst]
  decide

end PartyMix
