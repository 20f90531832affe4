import PartyMix.Lib.FiniteMap
import PartyMix.WalletState

/-!
# The pool manager

`pool.rs`: pool accounts and the internal accounting.  A call that takes
`&mut WalletState` returns the wallet it leaves behind; random ids are arguments.
The exact totals at the end are the quantities the accounting is about.
-/

namespace PartyMix

open FiniteMap FixedBytes MachineWord

inductive PoolError where
  | noPrimaryAccount
  | insufficientLiquidity (needed available : UInt64)
  | accountingMismatch (liabilities pool : UInt64)
deriving DecidableEq

structure PoolManager where
  config : MixerConfig

variable {A V : Type}

def PoolManager.creditDeposit (_pool : PoolManager) (wallet : WalletState A V)
    (userIdHash : Bytes 32) (amount : UInt64) : WalletState A V :=
  wallet.creditUser userIdHash amount

def PoolManager.primaryAccount (_pool : PoolManager) (order : IterOrder Uuid (PoolAccount A V))
    (wallet : WalletState A V) : Except PoolError (PoolAccount A V) :=
  match wallet.primaryPoolAccount order with
  | some account => .ok account
  | none => .error .noPrimaryAccount

/-- `zero` is the default value of the accumulator, `id` the random id of the
    account. -/
def PoolManager.createPoolAccount (P : Primitives A V) (zero : V) (_pool : PoolManager)
    (wallet : WalletState A V) (acctId : PublicKey) (label : String) (isPrimary : Bool)
    (id : Uuid) : PoolAccount A V × WalletState A V :=
  let state : AcctState A V :=
    { essence := ⟨acctId, 0, acctId⟩
      spentAccum := P.accNew
      nullifierAccum := wallet.nullifierAccumHistory.getLast?.getD zero }
  let account : PoolAccount A V := ⟨id, label, acctId, state, [], isPrimary⟩
  let wallet :=
    if isPrimary then
      { wallet with
        poolAccounts :=
          mapValues (fun existing => { existing with isPrimary := false }) wallet.poolAccounts }
    else
      wallet
  (account, wallet.updatePoolAccount account)

def PoolManager.reserveWithdrawal (_pool : PoolManager) (wallet : WalletState A V)
    (userIdHash : Bytes 32) (amount serviceFee : UInt64) :
    Except PoolError Unit × WalletState A V :=
  let total := saturatingAdd amount serviceFee
  match wallet.debitUser userIdHash total with
  | (false, wallet) =>
    let available := ((wallet.liabilities.lookup userIdHash).map LiabilityEntry.available).getD 0
    (.error (.insufficientLiquidity total available), wallet)
  | (true, wallet) => (.ok (), wallet)

def PoolManager.checkSolvency (profile : Profile)
    (userOrder : IterOrder (Bytes 32) LiabilityEntry)
    (accountOrder : IterOrder Uuid (PoolAccount A V)) (_pool : PoolManager)
    (wallet : WalletState A V) : Exec (Except PoolError Unit) := do
  let liabilities ← wallet.totalLiabilities profile userOrder
  let pool ← wallet.totalUnspentPoolValue profile accountOrder
  if liabilities > pool then
    .ok (.error (.accountingMismatch liabilities pool))
  else
    .ok (.ok ())

/-! ### Exact totals -/

namespace WalletState

def totalAvailable (wallet : WalletState A V) : Nat :=
  total (fun entry => entry.available.toNat) wallet.liabilities

def totalWithdrawn (wallet : WalletState A V) : Nat :=
  total (fun entry => entry.withdrawn.toNat) wallet.liabilities

def unspentTotal (wallet : WalletState A V) : Nat :=
  (wallet.unspentCoins.map fun poolCoin => poolCoin.coin.essence.amount.toNat).sum

def balanceTotal (wallet : WalletState A V) : Nat :=
  total (fun account => account.state.essence.balance.toNat) wallet.poolAccounts

theorem toNat_available (entry : LiabilityEntry) :
    entry.available.toNat = entry.credited.toNat - entry.withdrawn.toNat :=
  toNat_saturatingSub _ _

/-- What a credit changes, for every quantity that is zero on a new entry. -/
theorem total_creditUser (measure : LiabilityEntry → Nat) (wallet : WalletState A V)
    (userIdHash : Bytes 32) (amount : UInt64) (hnew : measure ⟨userIdHash, 0, 0⟩ = 0) :
    total measure (wallet.creditUser userIdHash amount).liabilities +
        measure (wallet.liabilityEntry userIdHash) =
      total measure wallet.liabilities +
        measure ⟨(wallet.liabilityEntry userIdHash).userIdHash,
          saturatingAdd (wallet.liabilityEntry userIdHash).credited amount,
          (wallet.liabilityEntry userIdHash).withdrawn⟩ := by
  have hold : valueAt measure wallet.liabilities userIdHash =
      measure (wallet.liabilityEntry userIdHash) := by
    unfold valueAt liabilityEntry
    cases wallet.liabilities.lookup userIdHash with
    | none => exact hnew.symm
    | some entry => rfl
  rw [← hold]
  exact total_insert _ _ _ _

/-- A credit raises the available total by at most its amount: by less when the
    credited field saturates. -/
theorem totalAvailable_creditUser (wallet : WalletState A V) (userIdHash : Bytes 32)
    (amount : UInt64) :
    (wallet.creditUser userIdHash amount).totalAvailable ≤
      wallet.totalAvailable + amount.toNat := by
  have hnew : (⟨userIdHash, 0, 0⟩ : LiabilityEntry).available.toNat = 0 := toNat_available _
  have hcredit := total_creditUser (fun entry => entry.available.toNat) wallet userIdHash amount
    hnew
  simp only [toNat_available, toNat_saturatingAdd] at hcredit
  simp only [totalAvailable, toNat_available]
  omega

theorem totalWithdrawn_creditUser (wallet : WalletState A V) (userIdHash : Bytes 32)
    (amount : UInt64) :
    (wallet.creditUser userIdHash amount).totalWithdrawn = wallet.totalWithdrawn :=
  Nat.add_right_cancel
    (total_creditUser (fun entry => entry.withdrawn.toNat) wallet userIdHash amount rfl)

theorem debitUser_cases {wallet next : WalletState A V} {userIdHash : Bytes 32}
    {amount : UInt64} {debited : Bool}
    (h : wallet.debitUser userIdHash amount = (debited, next)) :
    (debited = false ∧ next = wallet) ∨
      (debited = true ∧ ∃ entry, wallet.liabilities.lookup userIdHash = some entry ∧
        amount.toNat ≤ entry.available.toNat ∧
        next = { wallet with
          liabilities := wallet.liabilities.insert userIdHash
            ⟨entry.userIdHash, entry.credited, saturatingAdd entry.withdrawn amount⟩ }) := by
  unfold debitUser at h
  split at h
  · obtain ⟨rfl, rfl⟩ := Prod.mk.inj h
    exact Or.inl ⟨rfl, rfl⟩
  next entry hentry =>
  split at h
  · obtain ⟨rfl, rfl⟩ := Prod.mk.inj h
    exact Or.inl ⟨rfl, rfl⟩
  next hfunds =>
  obtain ⟨rfl, rfl⟩ := Prod.mk.inj h
  have hle : amount.toNat ≤ entry.available.toNat :=
    UInt64.le_iff_toNat_le.mp (UInt64.not_lt.mp hfunds)
  exact Or.inr ⟨rfl, entry, hentry, hle, rfl⟩

/-- A debit moves its whole amount from the available to the withdrawn total. -/
theorem totals_debitUser {wallet next : WalletState A V} {userIdHash : Bytes 32}
    {amount : UInt64} (h : wallet.debitUser userIdHash amount = (true, next)) :
    next.totalAvailable + amount.toNat = wallet.totalAvailable ∧
      next.totalWithdrawn = wallet.totalWithdrawn + amount.toNat ∧
      next.unspentCoins = wallet.unspentCoins ∧ next.poolAccounts = wallet.poolAccounts := by
  rcases debitUser_cases h with ⟨habs, -⟩ | ⟨-, entry, hentry, hle, rfl⟩
  · cases habs
  have hcredited := entry.credited.toNat_lt
  have hold := entry.withdrawn.toNat_lt
  have havailable := total_insert (fun entry => entry.available.toNat)
    wallet.liabilities userIdHash
    ⟨entry.userIdHash, entry.credited, saturatingAdd entry.withdrawn amount⟩
  have hwithdrawn := total_insert (fun entry => entry.withdrawn.toNat)
    wallet.liabilities userIdHash
    ⟨entry.userIdHash, entry.credited, saturatingAdd entry.withdrawn amount⟩
  simp only [valueAt, hentry, Option.map_some, Option.getD_some, toNat_available,
    toNat_saturatingAdd] at havailable hwithdrawn
  rw [toNat_available] at hle
  simp only [totalAvailable, totalWithdrawn, toNat_available, and_true]
  omega

end WalletState

/-! ### What the manager changes -/

variable {P : Primitives A V} {zero : V} {pool : PoolManager} {wallet next : WalletState A V}

/-- A reservation debits the amount and the fee, capped at the largest word, or
    changes nothing. -/
theorem reserveWithdrawal_cases {userIdHash : Bytes 32} {amount serviceFee : UInt64}
    {result : Except PoolError Unit}
    (h : pool.reserveWithdrawal wallet userIdHash amount serviceFee = (result, next)) :
    (result = .ok () ∧
        wallet.debitUser userIdHash (saturatingAdd amount serviceFee) = (true, next)) ∨
      ((∃ available, result =
          .error (.insufficientLiquidity (saturatingAdd amount serviceFee) available)) ∧
        next = wallet) := by
  unfold PoolManager.reserveWithdrawal at h
  cases hdebit : wallet.debitUser userIdHash (saturatingAdd amount serviceFee) with
  | mk debited debitedWallet =>
    simp only [hdebit] at h
    rcases WalletState.debitUser_cases hdebit with ⟨rfl, rfl⟩ | ⟨rfl, -⟩
    · obtain ⟨rfl, rfl⟩ := Prod.mk.inj h
      exact Or.inr ⟨⟨_, rfl⟩, rfl⟩
    · obtain ⟨rfl, rfl⟩ := Prod.mk.inj h
      exact Or.inl ⟨rfl, rfl⟩

/-- A new account changes neither the ledger nor the coins. -/
theorem createPoolAccount_frame {acctId : PublicKey} {label : String} {isPrimary : Bool}
    {id : Uuid} {account : PoolAccount A V}
    (h : pool.createPoolAccount P zero wallet acctId label isPrimary id = (account, next)) :
    next.liabilities = wallet.liabilities ∧ next.unspentCoins = wallet.unspentCoins := by
  obtain ⟨-, rfl⟩ := Prod.mk.inj h
  cases isPrimary <;> exact ⟨rfl, rfl⟩

/-- A new account is what the map holds at its id; a primary one takes the flag from
    the others. -/
theorem lookup_createPoolAccount {acctId : PublicKey} {label : String} {isPrimary : Bool}
    {id : Uuid} {account : PoolAccount A V}
    (h : pool.createPoolAccount P zero wallet acctId label isPrimary id = (account, next)) :
    account.id = id ∧ account.isPrimary = isPrimary ∧
      ∀ key, next.poolAccounts.lookup key =
        if key = id then some account
        else (wallet.poolAccounts.lookup key).map fun existing =>
          { existing with isPrimary := existing.isPrimary && !isPrimary } := by
  obtain ⟨rfl, rfl⟩ := Prod.mk.inj h
  refine ⟨rfl, rfl, ?_⟩
  intro key
  by_cases hkey : key = id
  · rw [if_pos hkey, hkey]
    exact Finmap.lookup_insert _
  · -- another account keeps its data, and its flag unless the new account is primary
    rw [if_neg hkey]
    cases isPrimary with
    | true =>
      have hothers := lookup_mapValues
        (fun existing : PoolAccount A V => { existing with isPrimary := false })
        wallet.poolAccounts key
      simp only [Bool.not_true, Bool.and_false]
      rw [← hothers]
      exact Finmap.lookup_insert_of_ne _ hkey
    | false =>
      simp only [Bool.not_false, Bool.and_true, Option.map_id']
      exact Finmap.lookup_insert_of_ne _ hkey

end PartyMix
