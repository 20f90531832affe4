import PartyMix.Types

/-!
# Wallet storage

`wallet_state.rs`: the pool accounts, the coins held, the liability ledger, the
nullifier map and the list of accumulator values the node has seen.  A method that
takes `&mut self` returns the wallet it leaves behind, next to its result.
-/

namespace PartyMix

open FixedBytes MachineWord

variable {A V : Type}

structure PruningConfig where
  spentAccumPruneBefore : Option UInt64
deriving DecidableEq

structure NullifierKvEntry where
  sigComm : SigCommitment
  blockchainLoc : BlockchainLocation
  feeAcctComm : Commitment
deriving DecidableEq

structure WalletState (A V : Type) where
  poolAccounts : HashMap Uuid (PoolAccount A V)
  unspentCoins : List (PoolCoin V)
  liabilities : HashMap (Bytes 32) LiabilityEntry
  nullifierKv : HashMap PublicKey NullifierKvEntry
  nullifierAccumHistory : List V
  spentAccumSnapshots : HashMap PublicKey A
  pcdVerificationKey : Option (List UInt8)
  pruning : PruningConfig

/-- `WalletState::new`; `zero` is the value `ToSAccValue([0u8; 32])`. -/
def WalletState.new (zero : V) : WalletState A V where
  poolAccounts := ∅
  unspentCoins := []
  liabilities := ∅
  nullifierKv := ∅
  nullifierAccumHistory := [zero]
  spentAccumSnapshots := ∅
  pcdVerificationKey := none
  pruning := ⟨none⟩

namespace WalletState

def primaryPoolAccount (order : IterOrder Uuid (PoolAccount A V)) (wallet : WalletState A V) :
    Option (PoolAccount A V) :=
  (order.values wallet.poolAccounts).find? PoolAccount.isPrimary

/-! ### The liability ledger -/

/-- `entry(user_id_hash).or_insert(..)`. -/
def liabilityEntry (wallet : WalletState A V) (userIdHash : Bytes 32) : LiabilityEntry :=
  (wallet.liabilities.lookup userIdHash).getD ⟨userIdHash, 0, 0⟩

def creditUser (wallet : WalletState A V) (userIdHash : Bytes 32) (amount : UInt64) :
    WalletState A V :=
  let entry := wallet.liabilityEntry userIdHash
  { wallet with
    liabilities := wallet.liabilities.insert userIdHash
      { entry with credited := saturatingAdd entry.credited amount } }

def debitUser (wallet : WalletState A V) (userIdHash : Bytes 32) (amount : UInt64) :
    Bool × WalletState A V :=
  match wallet.liabilities.lookup userIdHash with
  | none => (false, wallet)
  | some entry =>
    if entry.available < amount then
      (false, wallet)
    else
      (true,
        { wallet with
          liabilities := wallet.liabilities.insert userIdHash
            { entry with withdrawn := saturatingAdd entry.withdrawn amount } })

/-! ### The coins held -/

def addUnspentCoin (wallet : WalletState A V) (poolCoin : PoolCoin V) : WalletState A V :=
  { wallet with unspentCoins := wallet.unspentCoins ++ [poolCoin] }

def removeUnspentCoin (wallet : WalletState A V) (onChainId : CoinIdOnChain) :
    Option (PoolCoin V) × WalletState A V :=
  match wallet.unspentCoins.findIdx? fun poolCoin => poolCoin.coin.onChainId == onChainId with
  | some pos =>
    (wallet.unspentCoins[pos]?,
      { wallet with unspentCoins := wallet.unspentCoins.eraseIdx pos })
  | none => (none, wallet)

def alreadyReceivedIds (wallet : WalletState A V) : List CoinIdOnChain :=
  wallet.unspentCoins.map fun poolCoin => poolCoin.coin.onChainId

def updatePoolAccount (wallet : WalletState A V) (account : PoolAccount A V) :
    WalletState A V :=
  { wallet with poolAccounts := wallet.poolAccounts.insert account.id account }

/-! ### The accumulator history -/

def recordNullifierAccum [DecidableEq V] (wallet : WalletState A V) (value : V) :
    WalletState A V :=
  if wallet.nullifierAccumHistory.getLast? ≠ some value then
    { wallet with nullifierAccumHistory := wallet.nullifierAccumHistory ++ [value] }
  else
    wallet

/-- `drain(0..keep_from)` removes the front of the history. -/
def trimNullifierHistory (wallet : WalletState A V) (keepFrom : Nat) : WalletState A V :=
  if keepFrom < wallet.nullifierAccumHistory.length then
    { wallet with nullifierAccumHistory := wallet.nullifierAccumHistory.drop keepFrom }
  else
    wallet

/-! ### The totals -/

def totalLiabilities (profile : Profile) (order : IterOrder (Bytes 32) LiabilityEntry)
    (wallet : WalletState A V) : Exec UInt64 :=
  sumU64 profile ((order.values wallet.liabilities).map LiabilityEntry.available)

def totalUnspentPoolValue (profile : Profile) (order : IterOrder Uuid (PoolAccount A V))
    (wallet : WalletState A V) : Exec UInt64 := do
  let coins ← sumU64 profile
    (wallet.unspentCoins.map fun poolCoin => poolCoin.coin.essence.amount)
  let balances ← sumU64 profile
    ((order.values wallet.poolAccounts).map fun account => account.state.essence.balance)
  addU64 profile coins balances

/-! ### What the operations change -/

@[simp] theorem alreadyReceivedIds_creditUser (wallet : WalletState A V) (userIdHash : Bytes 32)
    (amount : UInt64) :
    (wallet.creditUser userIdHash amount).alreadyReceivedIds = wallet.alreadyReceivedIds := rfl

@[simp] theorem alreadyReceivedIds_addUnspentCoin (wallet : WalletState A V)
    (poolCoin : PoolCoin V) :
    (wallet.addUnspentCoin poolCoin).alreadyReceivedIds =
      wallet.alreadyReceivedIds ++ [poolCoin.coin.onChainId] :=
  List.map_append

/-- `poolCoin` is the first coin held with the id, between `before` and `after`. -/
structure HoldsFirst (wallet : WalletState A V) (onChainId : CoinIdOnChain)
    (before : List (PoolCoin V)) (poolCoin : PoolCoin V) (after : List (PoolCoin V)) : Prop where
  coins : wallet.unspentCoins = before ++ poolCoin :: after
  id : poolCoin.coin.onChainId = onChainId
  first : ∀ other ∈ before, other.coin.onChainId ≠ onChainId

theorem exists_holdsFirst {wallet : WalletState A V} {onChainId : CoinIdOnChain}
    (h : onChainId ∈ wallet.alreadyReceivedIds) :
    ∃ before poolCoin after, wallet.HoldsFirst onChainId before poolCoin after := by
  obtain ⟨idsBefore, idsAfter, hids, hnew⟩ := List.eq_append_cons_of_mem h
  obtain ⟨before, rest, hcoins, rfl, hrest⟩ := List.map_eq_append_iff.mp hids
  obtain ⟨poolCoin, after, rfl, hid, -⟩ := List.map_eq_cons_iff.mp hrest
  refine ⟨before, poolCoin, after, hcoins, hid, ?_⟩
  intro other hother hsame
  exact hnew (List.mem_map.mpr ⟨other, hother, hsame⟩)

/-- Removal takes the first coin with the id out, and nothing else. -/
theorem removeUnspentCoin_of_holdsFirst {wallet : WalletState A V} {onChainId : CoinIdOnChain}
    {before after : List (PoolCoin V)} {poolCoin : PoolCoin V}
    (h : wallet.HoldsFirst onChainId before poolCoin after) :
    wallet.removeUnspentCoin onChainId =
      (some poolCoin, { wallet with unspentCoins := before ++ after }) := by
  have hbefore : (before.findIdx? fun other => other.coin.onChainId == onChainId) = none := by
    rw [List.findIdx?_eq_none_iff]
    intro other hother
    simpa using h.first other hother
  have hpos : (wallet.unspentCoins.findIdx? fun other => other.coin.onChainId == onChainId) =
      some before.length := by
    simp [h.coins, List.findIdx?_append, hbefore, List.findIdx?_cons, h.id]
  rw [removeUnspentCoin, hpos]
  simp [h.coins, List.eraseIdx_append_of_length_le]

theorem removeUnspentCoin_of_notMem {wallet : WalletState A V} {onChainId : CoinIdOnChain}
    (h : onChainId ∉ wallet.alreadyReceivedIds) :
    wallet.removeUnspentCoin onChainId = (none, wallet) := by
  have hnone : (wallet.unspentCoins.findIdx? fun other => other.coin.onChainId == onChainId) =
      none := by
    rw [List.findIdx?_eq_none_iff]
    intro other hother
    have hne : other.coin.onChainId ≠ onChainId := by
      intro hsame
      exact h (List.mem_map.mpr ⟨other, hother, hsame⟩)
    simpa using hne
  rw [removeUnspentCoin, hnone]

theorem alreadyReceivedIds_removeUnspentCoin (wallet : WalletState A V)
    (onChainId : CoinIdOnChain) :
    (wallet.removeUnspentCoin onChainId).2.alreadyReceivedIds =
      wallet.alreadyReceivedIds.erase onChainId := by
  by_cases hheld : onChainId ∈ wallet.alreadyReceivedIds
  · obtain ⟨before, poolCoin, after, hfirst⟩ := exists_holdsFirst hheld
    have hnew : onChainId ∉ before.map fun other => other.coin.onChainId := by
      intro hmem
      obtain ⟨other, hother, hsame⟩ := List.mem_map.mp hmem
      exact hfirst.first other hother hsame
    rw [removeUnspentCoin_of_holdsFirst hfirst]
    simp [alreadyReceivedIds, hfirst.coins, hfirst.id, List.erase_append_right _ hnew]
  · rw [removeUnspentCoin_of_notMem hheld, List.erase_of_not_mem hheld]

@[simp] theorem nullifierKv_recordNullifierAccum [DecidableEq V] (wallet : WalletState A V)
    (value : V) : (wallet.recordNullifierAccum value).nullifierKv = wallet.nullifierKv := by
  unfold recordNullifierAccum
  split <;> rfl

@[simp] theorem nullifierKv_trimNullifierHistory (wallet : WalletState A V) (keepFrom : Nat) :
    (wallet.trimNullifierHistory keepFrom).nullifierKv = wallet.nullifierKv := by
  unfold trimNullifierHistory
  split <;> rfl

theorem nullifierAccumHistory_recordNullifierAccum [DecidableEq V] (wallet : WalletState A V)
    (value : V) :
    (wallet.recordNullifierAccum value).nullifierAccumHistory =
      if wallet.nullifierAccumHistory.getLast? = some value then wallet.nullifierAccumHistory
      else wallet.nullifierAccumHistory ++ [value] := by
  by_cases hlast : wallet.nullifierAccumHistory.getLast? = some value
  · simp [recordNullifierAccum, hlast]
  · simp [recordNullifierAccum, hlast]

theorem primaryPoolAccount_removeUnspentCoin (order : IterOrder Uuid (PoolAccount A V))
    (wallet : WalletState A V) (onChainId : CoinIdOnChain) :
    (wallet.removeUnspentCoin onChainId).2.primaryPoolAccount order =
      wallet.primaryPoolAccount order := by
  unfold removeUnspentCoin
  split <;> rfl

end WalletState

end PartyMix
