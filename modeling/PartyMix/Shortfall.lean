import PartyMix.Consolidation
import PartyMix.LedgerLimits
import PartyMix.SolvencyCheck

/-!
# What consolidation costs the books

With `consolidate_into_pool` among the operations the pool can become short: the call
takes a coin out and pays it into no account.  The books of every run are exact as long
as no more than a word was ever received.  What is available is what was received less
what was reserved, what is held is what was received less what was taken out, and the
accounts hold nothing.  So `check_solvency` fails exactly when more was consolidated than
users have reserved, and it reports these very numbers.
-/

namespace PartyMix

open FiniteMap FixedBytes MachineWord Transition

variable {A V M : Type} {B : PcdBackend A V}

/-! ### Events and what they say -/

/-- `taken` is the coin that `remove_unspent_coin` finds for the call. -/
inductive BookEvent (B : PcdBackend A V) (M : Type) where
  | wallet (event : WalletEvent B M)
  | consolidated (node : MixerNode B M) (order : IterOrder Uuid (PoolAccount A V))
      (coinId : CoinIdOnChain) (taken : Option (PoolCoin V)) (result : Except DepositError Unit)

def BookStep [DecidableEq V] (P : Primitives A V) (mgr : ToSAccM M V) (mixer : Mixer)
    (wallet : WalletState A V) : BookEvent B M → WalletState A V → Prop
  | .wallet event, next => WalletStep P mgr mixer wallet event next
  | .consolidated node order coinId taken result, next =>
    (wallet.removeUnspentCoin coinId).1 = taken ∧
      consolidateIntoPool mgr order mixer.deposits node wallet coinId = (result, next)

/-- Every event but a bare credit. -/
def BackedBook : BookEvent B M → Prop
  | .wallet event => Backed event
  | .consolidated _ _ _ _ _ => True

def receivedAmount : BookEvent B M → Nat
  | .wallet (.received _ _ _ _ (.ok receipt)) => receipt.creditedAmount.toNat
  | _ => 0

def reservedAmount : BookEvent B M → Nat
  | .wallet (.queued _ _ _ (.ok request)) => request.amount.toNat + request.serviceFee.toNat
  | _ => 0

def takenAmount : BookEvent B M → Nat
  | .consolidated _ _ _ (some poolCoin) _ => poolCoin.coin.essence.amount.toNat
  | _ => 0

def receivedTotal (events : List (BookEvent B M)) : Nat := (events.map receivedAmount).sum

def reservedTotal (events : List (BookEvent B M)) : Nat := (events.map reservedAmount).sum

def takenTotal (events : List (BookEvent B M)) : Nat := (events.map takenAmount).sum

@[simp] theorem receivedTotal_snoc (events : List (BookEvent B M)) (event : BookEvent B M) :
    receivedTotal (events ++ [event]) = receivedTotal events + receivedAmount event := by
  simp [receivedTotal]

@[simp] theorem reservedTotal_snoc (events : List (BookEvent B M)) (event : BookEvent B M) :
    reservedTotal (events ++ [event]) = reservedTotal events + reservedAmount event := by
  simp [reservedTotal]

@[simp] theorem takenTotal_snoc (events : List (BookEvent B M)) (event : BookEvent B M) :
    takenTotal (events ++ [event]) = takenTotal events + takenAmount event := by
  simp [takenTotal]

def WalletState.totalCredited (wallet : WalletState A V) : Nat :=
  total (fun entry => entry.credited.toNat) wallet.liabilities

/-- No account has a balance. -/
def EmptyAccounts (wallet : WalletState A V) : Prop :=
  ∀ id account, wallet.poolAccounts.lookup id = some account →
    account.state.essence.balance = 0

/-- The books of a run. -/
structure Books (events : List (BookEvent B M)) (wallet : WalletState A V) : Prop where
  held : wallet.unspentTotal + takenTotal events = receivedTotal events
  credited : wallet.totalCredited = receivedTotal events
  available : wallet.totalAvailable + reservedTotal events = receivedTotal events
  overdraft : NoOverdraft wallet
  accounts : EmptyAccounts wallet

theorem EmptyAccounts.balanceTotal {wallet : WalletState A V} (h : EmptyAccounts wallet) :
    wallet.balanceTotal = 0 := by
  apply total_eq_zero
  intro id account haccount
  rw [h id account haccount]
  rfl

/-! ### Credits and debits without a cap -/

theorem credited_le_totalCredited (wallet : WalletState A V) (userIdHash : Bytes 32) :
    (wallet.liabilityEntry userIdHash).credited.toNat ≤ wallet.totalCredited := by
  have hle := valueAt_le_total (fun entry => entry.credited.toNat) wallet.liabilities userIdHash
  unfold valueAt at hle
  unfold WalletState.liabilityEntry WalletState.totalCredited
  cases hlookup : wallet.liabilities.lookup userIdHash with
  | none => exact Nat.zero_le _
  | some entry =>
    rw [hlookup] at hle
    exact hle

/-- A credit that fits arrives in full in both totals. -/
theorem totals_creditUser {wallet : WalletState A V} (hwallet : NoOverdraft wallet)
    (userIdHash : Bytes 32) {amount : UInt64}
    (hfits : wallet.totalCredited + amount.toNat < 2 ^ 64) :
    (wallet.creditUser userIdHash amount).totalCredited =
        wallet.totalCredited + amount.toNat ∧
      (wallet.creditUser userIdHash amount).totalAvailable =
        wallet.totalAvailable + amount.toNat := by
  have hnew : (⟨userIdHash, 0, 0⟩ : LiabilityEntry).available.toNat = 0 :=
    WalletState.toNat_available _
  have hle := credited_le_totalCredited wallet userIdHash
  have hentry := hwallet userIdHash
  have hcredited := WalletState.total_creditUser (fun entry => entry.credited.toNat) wallet
    userIdHash amount rfl
  have havailable := WalletState.total_creditUser (fun entry => entry.available.toNat) wallet
    userIdHash amount hnew
  simp only [WalletState.toNat_available, toNat_saturatingAdd] at hcredited havailable
  simp only [WalletState.totalCredited, WalletState.totalAvailable,
    WalletState.toNat_available] at *
  omega

theorem totalCredited_debitUser {wallet next : WalletState A V} {userIdHash : Bytes 32}
    {amount : UInt64} (h : wallet.debitUser userIdHash amount = (true, next)) :
    next.totalCredited = wallet.totalCredited := by
  rcases WalletState.debitUser_cases h with ⟨habs, -⟩ | ⟨-, entry, hentry, -, rfl⟩
  · cases habs
  · have hinsert := total_insert (fun entry => entry.credited.toNat) wallet.liabilities userIdHash
      ⟨entry.userIdHash, entry.credited, saturatingAdd entry.withdrawn amount⟩
    simp only [valueAt, hentry, Option.map_some, Option.getD_some] at hinsert
    exact Nat.add_right_cancel hinsert

/-! ### One step -/

section Steps

variable {P : Primitives A V} {mgr : ToSAccM M V} {mixer : Mixer}
  {events : List (BookEvent B M)} {event : BookEvent B M} {wallet next : WalletState A V}

/-- An event keeps the books when the wallet changes by its amounts. -/
theorem Books.snoc (hbooks : Books events wallet)
    (hheld : next.unspentTotal + takenAmount event = wallet.unspentTotal + receivedAmount event)
    (hcredited : next.totalCredited = wallet.totalCredited + receivedAmount event)
    (havailable : next.totalAvailable + reservedAmount event =
      wallet.totalAvailable + receivedAmount event)
    (hoverdraft : NoOverdraft next) (haccounts : EmptyAccounts next) :
    Books (events ++ [event]) next := by
  have hbefore := hbooks.held
  have hbeforeCredited := hbooks.credited
  have hbeforeAvailable := hbooks.available
  refine ⟨?_, ?_, ?_, hoverdraft, haccounts⟩
  · rw [takenTotal_snoc, receivedTotal_snoc]
    omega
  · rw [receivedTotal_snoc]
    omega
  · rw [reservedTotal_snoc, receivedTotal_snoc]
    omega

/-- An event that moves no value keeps the books. -/
theorem Books.unchanged (hbooks : Books events wallet)
    (hevent : receivedAmount event = 0 ∧ reservedAmount event = 0 ∧ takenAmount event = 0)
    (hliabilities : next.liabilities = wallet.liabilities)
    (hcoins : next.unspentCoins = wallet.unspentCoins) (haccounts : EmptyAccounts next) :
    Books (events ++ [event]) next := by
  obtain ⟨hreceived, hreserved, htaken⟩ := hevent
  refine hbooks.snoc ?_ ?_ ?_ ?_ haccounts
  · rw [htaken, hreceived, WalletState.unspentTotal, hcoins]
    rfl
  · rw [hreceived, WalletState.totalCredited, hliabilities]
    rfl
  · rw [hreserved, hreceived, WalletState.totalAvailable, hliabilities]
    rfl
  · intro user
    have hentry : next.liabilityEntry user = wallet.liabilityEntry user :=
      WalletState.liabilityEntry_congr (by rw [hliabilities])
    rw [hentry]
    exact hbooks.overdraft user

theorem emptyAccounts_created {zero : V} {pool : PoolManager} {acctId : PublicKey}
    {label : String} {isPrimary : Bool} {id : Uuid} {account : PoolAccount A V}
    (hempty : EmptyAccounts wallet)
    (h : pool.createPoolAccount P zero wallet acctId label isPrimary id = (account, next)) :
    EmptyAccounts next := by
  have hbalance : account.state.essence.balance = 0 := by
    obtain ⟨rfl, -⟩ := Prod.mk.inj h
    rfl
  obtain ⟨-, -, hlookup⟩ := lookup_createPoolAccount h
  intro key found hfound
  rw [hlookup] at hfound
  split at hfound
  · obtain rfl := Option.some.inj hfound
    exact hbalance
  · obtain ⟨existing, hexisting, rfl⟩ := Option.map_eq_some_iff.mp hfound
    exact hempty key existing hexisting

variable [DecidableEq V]

theorem books_received {node : MixerNode B M} {userIdHash : Bytes 32}
    {payload : DepositPayload V} {depositId : Uuid}
    {result : Except DepositError DepositReceipt} (hbooks : Books events wallet)
    (h : receiveDeposit P mixer.deposits node wallet userIdHash payload depositId =
      (result, next))
    (hfits : receivedTotal (events ++ [(.wallet
      (.received node userIdHash payload depositId result) : BookEvent B M)]) < 2 ^ 64 - 1) :
    Books (events ++ [.wallet (.received node userIdHash payload depositId result)]) next := by
  rcases receiveDeposit_cases h with ⟨-, rfl, rfl⟩ | ⟨-, rfl, rfl⟩
  · have hcredited := hbooks.credited
    have hroom : wallet.totalCredited + payload.coin.essence.amount.toNat < 2 ^ 64 := by
      rw [receivedTotal_snoc] at hfits
      simp only [receivedAmount] at hfits
      omega
    obtain ⟨hmore, hfree⟩ := totals_creditUser hbooks.overdraft userIdHash hroom
    refine hbooks.snoc ?_ hmore hfree ?_ hbooks.accounts
    · simp [WalletState.unspentTotal, WalletState.addUnspentCoin, WalletState.creditUser,
        takenAmount, receivedAmount]
    · exact noOverdraft_creditUser hbooks.overdraft userIdHash payload.coin.essence.amount
  · exact hbooks.unchanged ⟨rfl, rfl, rfl⟩ rfl rfl hbooks.accounts

omit [DecidableEq V] in
theorem books_queued {userIdHash : Bytes 32} {request : WithdrawalRequestPayload} {id : Uuid}
    {result : Except WithdrawalError MixerWithdrawalRequest} (hbooks : Books events wallet)
    (h : queueWithdrawal mixer.withdrawals wallet userIdHash request id = (result, next))
    (hfits : receivedTotal events < 2 ^ 64 - 1) :
    Books (events ++ [(.wallet (.queued userIdHash request id result) : BookEvent B M)]) next := by
  rcases queueWithdrawal_cases h with ⟨rfl, hdebit⟩ | ⟨⟨error, rfl⟩, rfl⟩
  · have havailable := hbooks.available
    obtain ⟨hfree, -, hcoins, haccounts⟩ := WalletState.totals_debitUser hdebit
    -- less than the largest word is available, so the total was not capped
    rw [toNat_saturatingAdd] at hfree
    refine hbooks.snoc ?_ (totalCredited_debitUser hdebit) ?_
      (noOverdraft_debitUser hbooks.overdraft hdebit) ?_
    · rw [WalletState.unspentTotal, hcoins]
      rfl
    · simp only [reservedAmount, receivedAmount]
      omega
    · intro key account haccount
      rw [haccounts] at haccount
      exact hbooks.accounts key account haccount
  · -- a refused request moves nothing
    exact hbooks.unchanged ⟨rfl, rfl, rfl⟩ rfl rfl hbooks.accounts

omit [DecidableEq V] in
theorem books_consolidated {node : MixerNode B M} {order : IterOrder Uuid (PoolAccount A V)}
    {coinId : CoinIdOnChain} {taken : Option (PoolCoin V)} {result : Except DepositError Unit}
    (hbooks : Books events wallet) (htaken : (wallet.removeUnspentCoin coinId).1 = taken)
    (h : consolidateIntoPool mgr order mixer.deposits node wallet coinId = (result, next)) :
    Books (events ++ [.consolidated node order coinId taken result]) next := by
  by_cases hmem : coinId ∈ wallet.alreadyReceivedIds
  · obtain ⟨before, poolCoin, after, hfirst⟩ := WalletState.exists_holdsFirst hmem
    rw [WalletState.removeUnspentCoin_of_holdsFirst hfirst] at htaken
    rw [consolidateIntoPool_of_holdsFirst hfirst] at h
    obtain ⟨-, rfl⟩ := Prod.mk.inj h
    subst htaken
    refine hbooks.snoc ?_ rfl rfl hbooks.overdraft hbooks.accounts
    exact (unspentTotal_of_holdsFirst hfirst).symm
  · rw [WalletState.removeUnspentCoin_of_notMem hmem] at htaken
    rw [consolidateIntoPool_of_notMem hmem] at h
    obtain ⟨rfl, rfl⟩ := Prod.mk.inj h
    subst htaken
    exact hbooks.unchanged ⟨rfl, rfl, rfl⟩ rfl rfl hbooks.accounts

/-- Every operation keeps the books, as long as what was received fits. -/
theorem books_step (hbooks : Books events wallet) (hbacked : BackedBook event)
    (h : BookStep P mgr mixer wallet event next)
    (hfits : receivedTotal (events ++ [event]) < 2 ^ 64 - 1) :
    Books (events ++ [event]) next := by
  cases event with
  | consolidated node order coinId taken result => exact books_consolidated hbooks h.1 h.2
  | wallet event =>
    cases event with
    | created acctId label isPrimary id result =>
      obtain ⟨hliabilities, hcoins⟩ := createPoolAccount_frame h
      exact hbooks.unchanged ⟨rfl, rfl, rfl⟩ hliabilities hcoins
        (emptyAccounts_created hbooks.accounts h)
    -- the books have no column for a bare credit
    | credited userIdHash amount => cases hbacked
    | received node userIdHash payload depositId result => exact books_received hbooks h hfits
    | queued userIdHash request id result =>
      rw [receivedTotal_snoc] at hfits
      exact books_queued hbooks h (Nat.lt_of_le_of_lt (Nat.le_add_right _ _) hfits)
    | processed node order request txHashRandomness result =>
      obtain ⟨-, rfl⟩ := h
      exact hbooks.unchanged ⟨rfl, rfl, rfl⟩ rfl rfl hbooks.accounts
    | batched node order requests config txHashRandomness result =>
      obtain ⟨-, rfl⟩ := h
      exact hbooks.unchanged ⟨rfl, rfl, rfl⟩ rfl rfl hbooks.accounts

/-! ### Runs -/

theorem books_run (hrun : Run (BookStep P mgr mixer) (WalletState.new mgr.zero) events wallet)
    (hbacked : ∀ event ∈ events, BackedBook event)
    (hfits : receivedTotal events < 2 ^ 64 - 1) : Books events wallet := by
  induction hrun with
  | start =>
    refine ⟨rfl, rfl, rfl, noOverdraft_new mgr.zero, ?_⟩
    intro id account haccount
    cases haccount
  | @snoc events wallet next event _ hlast ih =>
    have hinit : receivedTotal events < 2 ^ 64 - 1 := by
      rw [receivedTotal_snoc] at hfits
      omega
    refine books_step (ih (fun other hother => hbacked other ?_) hinit) (hbacked event ?_) hlast
      hfits
    · exact List.mem_append_left _ hother
    · exact List.mem_append_right _ (List.mem_singleton_self _)

end Steps

/-- Between sums that fit, the check compares the exact totals and reports them. -/
theorem checkSolvency_of_fits (profile : Profile)
    (userOrder : IterOrder (Bytes 32) LiabilityEntry)
    (accountOrder : IterOrder Uuid (PoolAccount A V)) (pool : PoolManager)
    {wallet : WalletState A V} (hfit : TotalsFit wallet) :
    ∃ liabilities value : UInt64, liabilities.toNat = wallet.totalAvailable ∧
      value.toNat = wallet.unspentTotal + wallet.balanceTotal ∧
      pool.checkSolvency profile userOrder accountOrder wallet =
        .ok (if wallet.unspentTotal + wallet.balanceTotal < wallet.totalAvailable then
          .error (.accountingMismatch liabilities value) else .ok ()) := by
  obtain ⟨liabilities, value, hleft, hliabilities, hright, hvalue⟩ :=
    exists_sums profile userOrder accountOrder wallet fun _ => hfit
  rw [Nat.mod_eq_of_lt hfit.1] at hliabilities
  rw [Nat.mod_eq_of_lt hfit.2] at hvalue
  refine ⟨liabilities, value, hliabilities, hvalue, ?_⟩
  have hcompare : liabilities > value ↔
      wallet.unspentTotal + wallet.balanceTotal < wallet.totalAvailable := by
    rw [← hliabilities, ← hvalue]
    exact UInt64.lt_iff_toNat_lt
  unfold PoolManager.checkSolvency
  rw [hleft, hright]
  simp only [ok_bind, hcompare]
  split <;> rfl

/-- **The shortfall.**  In every run that receives less than a word, the books are exact
    and the accounts hold nothing, so the check fails exactly when more was consolidated
    than reserved, with the two totals of the books in its error. -/
theorem check_fails_when_consolidated_exceeds_reserved [DecidableEq V] (P : Primitives A V)
    (mgr : ToSAccM M V) (mixer : Mixer) (events : List (BookEvent B M)) (wallet : WalletState A V)
    (hrun : Run (BookStep P mgr mixer) (WalletState.new mgr.zero) events wallet)
    (hbacked : ∀ event ∈ events, BackedBook event)
    (hfits : receivedTotal events < 2 ^ 64 - 1) :
    wallet.unspentTotal + takenTotal events = receivedTotal events ∧
      wallet.totalAvailable + reservedTotal events = receivedTotal events ∧
      wallet.balanceTotal = 0 ∧
      ∀ profile userOrder accountOrder, ∃ liabilities value : UInt64,
        liabilities.toNat = receivedTotal events - reservedTotal events ∧
          value.toNat = receivedTotal events - takenTotal events ∧
          mixer.pool.checkSolvency profile userOrder accountOrder wallet =
            .ok (if reservedTotal events < takenTotal events then
              .error (.accountingMismatch liabilities value) else .ok ()) := by
  have hbooks := books_run hrun hbacked hfits
  have hheld := hbooks.held
  have havailable := hbooks.available
  have hbalance := hbooks.accounts.balanceTotal
  refine ⟨hheld, havailable, hbalance, ?_⟩
  intro profile userOrder accountOrder
  have hfit : TotalsFit wallet := ⟨by omega, by omega⟩
  obtain ⟨liabilities, value, hliabilities, hvalue, hcheck⟩ := checkSolvency_of_fits profile
    userOrder accountOrder mixer.pool hfit
  refine ⟨liabilities, value, by omega, by omega, ?_⟩
  have hshort : wallet.unspentTotal + wallet.balanceTotal < wallet.totalAvailable ↔
      reservedTotal events < takenTotal events := by omega
  rw [hcheck]
  simp only [hshort]

/-- A deposit of 7 is consolidated into a primary account, and the check finds liabilities
    of 7 and nothing in the pool. -/
theorem consolidatedDeposit_short :
    ∃ (events : List (BookEvent (mockPcd : PcdBackend (Finset CoinIdOnChain) Nav) Nav))
      (wallet : WalletState (Finset CoinIdOnChain) Nav),
      Run (BookStep idealPrimitives .ideal depositMixer) (WalletState.new []) events wallet ∧
        events.length = 3 ∧
        ∀ profile userOrder accountOrder,
          depositMixer.pool.checkSolvency profile userOrder accountOrder wallet =
            .ok (.error (.accountingMismatch 7 0)) := by
  obtain ⟨account, created, hcreated, hcoins⟩ : ∃ account created,
      BookStep idealPrimitives .ideal depositMixer (WalletState.new [])
        (.wallet (.created sampleKey "primary" true Uuid.nil account) :
          BookEvent (mockPcd : PcdBackend (Finset CoinIdOnChain) Nav) Nav) created ∧
        created.unspentCoins = [] := ⟨_, _, rfl, rfl⟩
  have hreceived : BookStep idealPrimitives .ideal depositMixer created (.wallet depositReceived)
      ((created.creditUser (beBytes 32 1) 7).addUnspentCoin
        ⟨chainCoin [], mockPcdPrefix, Uuid.nil⟩) := sampleReceived_step created (beBytes 32 1)
  have hfirst : ((created.creditUser (beBytes 32 1) 7).addUnspentCoin
      ⟨chainCoin [], mockPcdPrefix, Uuid.nil⟩).HoldsFirst (chainCoin []).onChainId []
        ⟨chainCoin [], mockPcdPrefix, Uuid.nil⟩ [] := by
    refine ⟨?_, rfl, List.forall_mem_nil _⟩
    change created.unspentCoins ++ _ = _
    rw [hcoins]
  obtain ⟨result, wallet, hconsolidate⟩ : ∃ result wallet, consolidateIntoPool .ideal
      IterOrder.unspecified depositMixer.deposits sampleNode _ (chainCoin []).onChainId =
        (result, wallet) := ⟨_, _, consolidateIntoPool_of_holdsFirst hfirst⟩
  have hconsolidated : BookStep idealPrimitives .ideal depositMixer _
      (.consolidated sampleNode IterOrder.unspecified (chainCoin []).onChainId
        (some ⟨chainCoin [], mockPcdPrefix, Uuid.nil⟩) result) wallet :=
    ⟨by rw [WalletState.removeUnspentCoin_of_holdsFirst hfirst], hconsolidate⟩
  have hrun := Run.snoc (Run.snoc (Run.snoc Run.start hcreated) hreceived) hconsolidated
  have hbacked : ∀ event ∈ [(.wallet (.created sampleKey "primary" true Uuid.nil account) :
      BookEvent (mockPcd : PcdBackend (Finset CoinIdOnChain) Nav) Nav), .wallet depositReceived,
      .consolidated sampleNode IterOrder.unspecified (chainCoin []).onChainId
        (some ⟨chainCoin [], mockPcdPrefix, Uuid.nil⟩) result], BackedBook event := by
    simp [BackedBook, Backed, depositReceived]
  obtain ⟨-, -, -, hcheck⟩ := check_fails_when_consolidated_exceeds_reserved idealPrimitives .ideal
    depositMixer _ wallet hrun hbacked (show (7 : Nat) < 2 ^ 64 - 1 by decide)
  refine ⟨_, wallet, hrun, rfl, ?_⟩
  intro profile userOrder accountOrder
  obtain ⟨liabilities, value, hliabilities, hvalue, hresult⟩ := hcheck profile userOrder
    accountOrder
  have hseven : liabilities = 7 := UInt64.toNat_inj.mp hliabilities
  have hzero : value = 0 := UInt64.toNat_inj.mp hvalue
  rw [hresult, hseven, hzero]
  rfl

end PartyMix
