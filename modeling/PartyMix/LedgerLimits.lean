import PartyMix.Ledger
import PartyMix.Solvency

/-!
# The ledger against its receipts

A receipt names the amount that was accepted and a queued request names its amount
and its fee, but the ledger adds and takes words that saturate.  What a user has
available is what the receipts and the requests say exactly in the runs in which no
credit and no reservation is cut off at the largest word.
-/

namespace PartyMix

open FixedBytes MachineWord Transition

/-! ### One entry -/

section Entry

variable {A V : Type}

/-- A credit arrives in full exactly when the credited field has room for it. -/
theorem available_creditUser_iff {wallet : WalletState A V} (hwallet : NoOverdraft wallet)
    (userIdHash : Bytes 32) (amount : UInt64) :
    ((wallet.creditUser userIdHash amount).liabilityEntry userIdHash).available.toNat =
        (wallet.liabilityEntry userIdHash).available.toNat + amount.toNat ↔
      (wallet.liabilityEntry userIdHash).credited.toNat + amount.toNat < 2 ^ 64 := by
  have hle := hwallet userIdHash
  have hlt := (wallet.liabilityEntry userIdHash).credited.toNat_lt
  rw [WalletState.liabilityEntry_creditUser]
  simp only [WalletState.toNat_available, toNat_saturatingAdd]
  omega

/-- A debit takes its amount from what is available. -/
theorem available_debitUser {wallet next : WalletState A V} (hwallet : NoOverdraft wallet)
    {userIdHash : Bytes 32} {amount : UInt64}
    (h : wallet.debitUser userIdHash amount = (true, next)) :
    (next.liabilityEntry userIdHash).available.toNat + amount.toNat =
      (wallet.liabilityEntry userIdHash).available.toNat := by
  have hle := hwallet userIdHash
  have hlt := (wallet.liabilityEntry userIdHash).credited.toNat_lt
  obtain ⟨hfunds, hentry⟩ := WalletState.liabilityEntry_debitUser h
  rw [hentry]
  simp only [WalletState.toNat_available, toNat_saturatingAdd] at hfunds ⊢
  omega

/-- A request is queued for a user with an entry that covers the capped amount. -/
theorem queueWithdrawal_succeeds_iff (handler : WithdrawalHandler) (wallet : WalletState A V)
    (userIdHash : Bytes 32) (request : WithdrawalRequestPayload) (id : Uuid) :
    (∃ queued, (queueWithdrawal handler wallet userIdHash request id).1 = .ok queued) ↔
      userIdHash ∈ wallet.liabilities ∧
        min (request.amount.toNat + handler.pool.config.withdrawalServiceFee.toNat) (2 ^ 64 - 1) ≤
          (wallet.liabilityEntry userIdHash).available.toNat := by
  rw [← toNat_saturatingAdd, ← WalletState.debitUser_eq_true_iff]
  unfold queueWithdrawal PoolManager.reserveWithdrawal
  rcases hdebit : wallet.debitUser userIdHash (saturatingAdd request.amount
    handler.pool.config.withdrawalServiceFee) with ⟨_ | _, rest⟩
  · simp [hdebit]
  · simp [hdebit]

/-- A user without an entry has nothing available. -/
theorem available_of_notMem {wallet : WalletState A V} {user : Bytes 32}
    (h : user ∉ wallet.liabilities) : (wallet.liabilityEntry user).available.toNat = 0 := by
  rw [WalletState.liabilityEntry, Finmap.lookup_eq_none.mpr h]
  exact WalletState.toNat_available _

end Entry

/-! ### What receipts and requests say -/

section Receipts

variable {A V M : Type} {B : PcdBackend A V}

/-- What the receipt of an event says was credited to a user. -/
def receiptOf (user : Bytes 32) : WalletEvent B M → Nat
  | .received _ userIdHash _ _ (.ok receipt) =>
    if userIdHash = user then receipt.creditedAmount.toNat else 0
  | _ => 0

/-- What the request an event queues charges to a user. -/
def chargeOf (user : Bytes 32) : WalletEvent B M → Nat
  | .queued userIdHash _ _ (.ok request) =>
    if userIdHash = user then request.amount.toNat + request.serviceFee.toNat else 0
  | _ => 0

def receiptTotal (user : Bytes 32) (events : List (WalletEvent B M)) : Nat :=
  (events.map (receiptOf user)).sum

def chargeTotal (user : Bytes 32) (events : List (WalletEvent B M)) : Nat :=
  (events.map (chargeOf user)).sum

/-- What each user has available is what their receipts credit less what their
    requests charge. -/
def LedgerExact (events : List (WalletEvent B M)) (wallet : WalletState A V) : Prop :=
  ∀ user, (wallet.liabilityEntry user).available.toNat + chargeTotal user events =
    receiptTotal user events

@[simp] theorem receiptTotal_snoc (user : Bytes 32) (events : List (WalletEvent B M))
    (event : WalletEvent B M) :
    receiptTotal user (events ++ [event]) = receiptTotal user events + receiptOf user event := by
  simp [receiptTotal]

@[simp] theorem chargeTotal_snoc (user : Bytes 32) (events : List (WalletEvent B M))
    (event : WalletEvent B M) :
    chargeTotal user (events ++ [event]) = chargeTotal user events + chargeOf user event := by
  simp [chargeTotal]

/-- An event that changes one entry keeps the ledger exact if and only if it does so
    at that entry. -/
theorem ledgerExact_snoc_iff {events : List (WalletEvent B M)} {event : WalletEvent B M}
    {wallet next : WalletState A V} (hexact : LedgerExact events wallet) (userIdHash : Bytes 32)
    (hother : ∀ user, user ≠ userIdHash →
      next.liabilityEntry user = wallet.liabilityEntry user ∧
        receiptOf user event = 0 ∧ chargeOf user event = 0) :
    LedgerExact (events ++ [event]) next ↔
      (next.liabilityEntry userIdHash).available.toNat + chargeOf userIdHash event =
        (wallet.liabilityEntry userIdHash).available.toNat + receiptOf userIdHash event := by
  have hbefore := hexact userIdHash
  constructor
  · intro hafter
    have huser := hafter userIdHash
    rw [receiptTotal_snoc, chargeTotal_snoc] at huser
    omega
  · intro hentry user
    rw [receiptTotal_snoc, chargeTotal_snoc]
    by_cases huser : user = userIdHash
    · subst huser
      omega
    · obtain ⟨hsame, hreceipt, hcharge⟩ := hother user huser
      have hold := hexact user
      rw [hsame]
      omega

/-- An event that changes no entry, receipt or request keeps the ledger exact. -/
theorem LedgerExact.unchanged {events : List (WalletEvent B M)} {event : WalletEvent B M}
    {wallet next : WalletState A V} (hexact : LedgerExact events wallet)
    (hsame : next.liabilities = wallet.liabilities) (hreceipt : ∀ user, receiptOf user event = 0)
    (hcharge : ∀ user, chargeOf user event = 0) : LedgerExact (events ++ [event]) next := by
  intro user
  have hentry : next.liabilityEntry user = wallet.liabilityEntry user :=
    WalletState.liabilityEntry_congr (by rw [hsame])
  rw [receiptTotal_snoc, chargeTotal_snoc, hreceipt, hcharge, hentry]
  exact hexact user

end Receipts

/-! ### Runs of the wallet operations -/

section Runs

variable {A V M : Type} [DecidableEq V] {B : PcdBackend A V} {P : Primitives A V}
  {mgr : ToSAccM M V} {mixer : Mixer} {wallet next : WalletState A V}

/-- A request with its fee fits a word, or is above every balance but the largest. -/
def RequestFits (handler : WithdrawalHandler) (wallet : WalletState A V)
    (userIdHash : Bytes 32) (request : WithdrawalRequestPayload) : Prop :=
  request.amount.toNat + handler.pool.config.withdrawalServiceFee.toNat < 2 ^ 64 ∨
    (wallet.liabilityEntry userIdHash).available.toNat < 2 ^ 64 - 1

/-- Nothing is cut off: the credited field has room for a deposit that is accepted,
    and a request fits. -/
def FitsWord (P : Primitives A V) (mixer : Mixer) (wallet : WalletState A V) :
    WalletEvent B M → Prop
  | .received node userIdHash payload _ _ => Acceptable P mixer.deposits node payload →
    (wallet.liabilityEntry userIdHash).credited.toNat + payload.coin.essence.amount.toNat < 2 ^ 64
  | .queued userIdHash request _ _ => RequestFits mixer.withdrawals wallet userIdHash request
  | _ => True

/-- A deposit keeps the ledger exact if and only if it is refused or fits. -/
theorem ledgerExact_received_iff {events : List (WalletEvent B M)} {node : MixerNode B M}
    {userIdHash : Bytes 32} {payload : DepositPayload V} {depositId : Uuid}
    {result : Except DepositError DepositReceipt} (hwallet : NoOverdraft wallet)
    (hexact : LedgerExact events wallet)
    (h : WalletStep P mgr mixer wallet
      (.received node userIdHash payload depositId result) next) :
    LedgerExact (events ++ [.received node userIdHash payload depositId result]) next ↔
      FitsWord P mixer wallet (.received node userIdHash payload depositId result) := by
  rcases receiveDeposit_cases h with ⟨haccept, rfl, rfl⟩ | ⟨hreject, rfl, rfl⟩
  · rw [ledgerExact_snoc_iff hexact userIdHash]
    · simp only [FitsWord, haccept, true_implies, receiptOf, chargeOf, if_true, Nat.add_zero]
      exact available_creditUser_iff hwallet userIdHash _
    · intro user huser
      refine ⟨?_, if_neg (Ne.symm huser), rfl⟩
      exact WalletState.liabilityEntry_congr (wallet.lookup_creditUser_of_ne _ huser)
  · have hfits : Acceptable P mixer.deposits node payload →
        (next.liabilityEntry userIdHash).credited.toNat + payload.coin.essence.amount.toNat <
          2 ^ 64 := fun haccept => absurd haccept hreject
    exact iff_of_true (hexact.unchanged rfl (fun _ => rfl) (fun _ => rfl)) hfits

omit [DecidableEq V] in
/-- A request keeps the ledger exact if and only if it is refused or fits. -/
theorem ledgerExact_queued_iff {events : List (WalletEvent B M)} {userIdHash : Bytes 32}
    {request : WithdrawalRequestPayload} {id : Uuid}
    {result : Except WithdrawalError MixerWithdrawalRequest} (hwallet : NoOverdraft wallet)
    (hexact : LedgerExact events wallet)
    (h : queueWithdrawal mixer.withdrawals wallet userIdHash request id = (result, next)) :
    LedgerExact (events ++ [.queued userIdHash request id result]) next ↔
      RequestFits mixer.withdrawals wallet userIdHash request := by
  rcases queueWithdrawal_cases h with ⟨rfl, hdebit⟩ | ⟨⟨error, rfl⟩, rfl⟩
  · -- the request was charged: the ledger takes the sum saturated, the bound asks for it exact
    have htaken := available_debitUser hwallet hdebit
    rw [toNat_saturatingAdd] at htaken
    rw [ledgerExact_snoc_iff hexact userIdHash]
    · simp only [RequestFits, receiptOf, chargeOf, if_true]
      omega
    · intro user huser
      refine ⟨?_, rfl, if_neg (Ne.symm huser)⟩
      exact WalletState.liabilityEntry_congr (WalletState.lookup_debitUser_of_ne hdebit huser)
  · -- a refused request changes nothing, and it fits: with more available than asked for it would
    -- have been queued
    have hrefused : ¬ ∃ queued,
        (queueWithdrawal mixer.withdrawals next userIdHash request id).1 = .ok queued := by
      rintro ⟨queued, hqueued⟩
      rw [h] at hqueued
      cases hqueued
    have hfits : RequestFits mixer.withdrawals next userIdHash request := by
      unfold RequestFits
      by_cases hknown : userIdHash ∈ next.liabilities
      · rw [queueWithdrawal_succeeds_iff, not_and] at hrefused
        have hshort := hrefused hknown
        omega
      · have hnone := available_of_notMem hknown
        omega
    exact iff_of_true (hexact.unchanged rfl (fun _ => rfl) (fun _ => rfl)) hfits

/-- Every operation but a bare credit keeps the ledger exact if and only if it fits. -/
theorem ledgerExact_step_iff {events : List (WalletEvent B M)} {event : WalletEvent B M}
    (hwallet : NoOverdraft wallet) (hexact : LedgerExact events wallet) (hbacked : Backed event)
    (h : WalletStep P mgr mixer wallet event next) :
    LedgerExact (events ++ [event]) next ↔ FitsWord P mixer wallet event := by
  cases event with
  | created acctId label isPrimary id result =>
    have hsame := (createPoolAccount_frame h).1
    exact iff_of_true (hexact.unchanged hsame (fun _ => rfl) (fun _ => rfl)) trivial
  | credited userIdHash amount => cases hbacked
  | received node userIdHash payload depositId result =>
    exact ledgerExact_received_iff hwallet hexact h
  | queued userIdHash request id result => exact ledgerExact_queued_iff hwallet hexact h
  | processed node order request txHashRandomness result =>
    obtain ⟨-, rfl⟩ := h
    exact iff_of_true (hexact.unchanged rfl (fun _ => rfl) (fun _ => rfl)) trivial
  | batched node order requests config txHashRandomness result =>
    obtain ⟨-, rfl⟩ := h
    exact iff_of_true (hexact.unchanged rfl (fun _ => rfl) (fun _ => rfl)) trivial

theorem noOverdraft_walletStep {event : WalletEvent B M} (hwallet : NoOverdraft wallet)
    (h : WalletStep P mgr mixer wallet event next) : NoOverdraft next := by
  rcases walletStep_cases h with ⟨hsame, -, -⟩ | ⟨userIdHash, amount, -, rfl⟩ |
    ⟨userIdHash, poolCoin, -, rfl⟩ | ⟨userIdHash, debit, request, -, -, hdebit⟩
  · intro user
    have hentry : next.liabilityEntry user = wallet.liabilityEntry user :=
      WalletState.liabilityEntry_congr (by rw [hsame])
    rw [hentry]
    exact hwallet user
  · exact noOverdraft_creditUser hwallet userIdHash amount
  · exact noOverdraft_creditUser hwallet userIdHash poolCoin.coin.essence.amount
  · exact noOverdraft_debitUser hwallet hdebit

/-- The ledger is exact and has no overdraft along every run that fits. -/
theorem ledgerExact_run {events : List (WalletEvent B M)}
    (hmeets : Meets (WalletStep P mgr mixer)
      (fun _ wallet event => Backed event ∧ FitsWord P mixer wallet event)
      (WalletState.new mgr.zero) events wallet) :
    NoOverdraft wallet ∧ LedgerExact events wallet := by
  refine hmeets.invariant (I := fun events wallet => NoOverdraft wallet ∧
    LedgerExact events wallet) ?_ ⟨noOverdraft_new mgr.zero, ?_⟩
  · rintro events wallet event next ⟨hwallet, hexact⟩ ⟨hbacked, hfits⟩ hstep
    exact ⟨noOverdraft_walletStep hwallet hstep,
      (ledgerExact_step_iff hwallet hexact hbacked hstep).mpr hfits⟩
  · intro user
    rw [available_of_notMem (Finmap.notMem_empty)]
    rfl

end Runs

/-- **The ledger at its limits.**  Along every run whose deposits and requests fit, what
    a user has available is what the receipts credit less what the requests charge,
    and the next step keeps it so exactly when it fits too.  A request then succeeds
    if and only if its amount and fee are available, but for a user without an entry
    who asks for nothing, and for a request above the largest word that meets a full
    balance. -/
theorem ledger_exact_at_limits {A V M : Type} [DecidableEq V] {B : PcdBackend A V}
    (P : Primitives A V) (mgr : ToSAccM M V) (mixer : Mixer) (events : List (WalletEvent B M))
    (wallet : WalletState A V)
    (hmeets : Meets (WalletStep P mgr mixer)
      (fun _ wallet event => Backed event ∧ FitsWord P mixer wallet event)
      (WalletState.new mgr.zero) events wallet) :
    (∀ user, ((wallet.liabilityEntry user).available.toNat : Int) =
        receiptTotal user events - chargeTotal user events) ∧
      (∀ event next, Backed event → WalletStep P mgr mixer wallet event next →
        (LedgerExact (events ++ [event]) next ↔ FitsWord P mixer wallet event)) ∧
      ∀ user request id,
        ((∃ queued, (queueWithdrawal mixer.withdrawals wallet user request id).1 = .ok queued) ↔
            request.amount.toNat + mixer.withdrawals.pool.config.withdrawalServiceFee.toNat ≤
              (wallet.liabilityEntry user).available.toNat) ↔
          (user ∈ wallet.liabilities ∨
              0 < request.amount.toNat +
                mixer.withdrawals.pool.config.withdrawalServiceFee.toNat) ∧
            RequestFits mixer.withdrawals wallet user request := by
  obtain ⟨hwallet, hexact⟩ := ledgerExact_run hmeets
  refine ⟨?_, ?_, ?_⟩
  · intro user
    have huser := hexact user
    omega
  · intro event next hbacked hstep
    exact ledgerExact_step_iff hwallet hexact hbacked hstep
  · intro user request id
    rw [queueWithdrawal_succeeds_iff]
    have hlt := (wallet.liabilityEntry user).available.toNat_lt
    by_cases hknown : user ∈ wallet.liabilities
    · simp only [hknown, true_and, true_or, RequestFits]
      omega
    · -- an unknown user is refused also when nothing is asked for
      have hnone := available_of_notMem hknown
      simp only [hknown, false_and, false_or, false_iff, not_le, RequestFits]
      omega

def fullCoin : Coin Nav :=
  { chainCoin [] with
    essence := { (chainCoin []).essence with amount := 0xffffffffffffffff } }

def fullReceived : WalletEvent (mockPcd : PcdBackend (Finset CoinIdOnChain) Nav) Nav :=
  .received sampleNode (beBytes 32 1) { samplePayload with coin := fullCoin } Uuid.nil
    (.ok ⟨Uuid.nil, 0xffffffffffffffff, .pendingConsolidation⟩)

def fullQueued : WalletEvent (mockPcd : PcdBackend (Finset CoinIdOnChain) Nav) Nav :=
  .queued (beBytes 32 1) ⟨Uuid.nil, 0xffffffffffffffff, ⟨zeroBytes 32⟩, zeroBytes 32⟩ Uuid.nil
    (.ok ⟨Uuid.nil, beBytes 32 1, 0xffffffffffffffff, ⟨zeroBytes 32⟩, 1, .queued⟩)

/-- The wallet that holds the coin of `fullReceived`. -/
def fullHeld : WalletState (Finset CoinIdOnChain) Nav :=
  ((WalletState.new []).creditUser (beBytes 32 1) 0xffffffffffffffff).addUnspentCoin
    ⟨fullCoin, mockPcdPrefix, Uuid.nil⟩

theorem fullReceived_step :
    WalletStep idealPrimitives .ideal depositMixer (WalletState.new []) fullReceived fullHeld := by
  have haccept : acceptPayment idealPrimitives sampleNode fullCoin mockPcdPrefix (zeroBytes 32)
      (zeroBytes 32) = .ok 0xffffffffffffffff :=
    acceptPayment_eq_ok_iff.mpr ⟨rfl, by decide, by decide, by decide, rfl⟩
  exact receiveDeposit_of_accepted (WalletState.new []) (beBytes 32 1) Uuid.nil haccept

/-- After a deposit of the largest amount, a request for all of it succeeds and the
    fee of 1 is not charged. -/
theorem full_balance_pays_no_fee : ∃ wallet,
    Run (WalletStep idealPrimitives .ideal depositMixer) (WalletState.new [])
        [fullReceived, fullQueued] wallet ∧
      receiptTotal (beBytes 32 1) [fullReceived, fullQueued] = 2 ^ 64 - 1 ∧
      chargeTotal (beBytes 32 1) [fullReceived, fullQueued] = 2 ^ 64 ∧
      (wallet.liabilityEntry (beBytes 32 1)).available = 0 ∧
      ¬ LedgerExact [fullReceived, fullQueued] wallet := by
  obtain ⟨wallet, hqueued, havailable⟩ : ∃ wallet,
      WalletStep idealPrimitives .ideal depositMixer fullHeld fullQueued wallet ∧
        (wallet.liabilityEntry (beBytes 32 1)).available = 0 := ⟨_, rfl, rfl⟩
  have hreceipts : receiptTotal (beBytes 32 1) [fullReceived, fullQueued] = 2 ^ 64 - 1 := by
    decide
  have hcharges : chargeTotal (beBytes 32 1) [fullReceived, fullQueued] = 2 ^ 64 := by
    decide
  refine ⟨wallet, Run.snoc (Run.snoc Run.start fullReceived_step) hqueued, hreceipts, hcharges,
    havailable, ?_⟩
  intro hexact
  have huser := hexact (beBytes 32 1)
  rw [hreceipts, hcharges, havailable] at huser
  cases huser

/-- A deposit of 7, of which 5 and a fee of 1 are charged. -/
theorem sampleDeposit_exact : ∃ wallet,
    Run (WalletStep idealPrimitives .ideal depositMixer) (WalletState.new [])
        [depositReceived, depositQueued] wallet ∧
      ((wallet.liabilityEntry (beBytes 32 1)).available.toNat : Int) = 7 - 6 := by
  have hreceived : WalletStep idealPrimitives .ideal depositMixer (WalletState.new [])
      depositReceived (((WalletState.new []).creditUser (beBytes 32 1) 7).addUnspentCoin
        ⟨chainCoin [], mockPcdPrefix, Uuid.nil⟩) := sampleReceived_step _ _
  obtain ⟨wallet, hqueued⟩ : ∃ wallet, WalletStep idealPrimitives .ideal depositMixer
      (((WalletState.new []).creditUser (beBytes 32 1) 7).addUnspentCoin
        ⟨chainCoin [], mockPcdPrefix, Uuid.nil⟩) depositQueued wallet := ⟨_, rfl⟩
  have hmeets : Meets (WalletStep idealPrimitives .ideal depositMixer)
      (fun _ wallet event => Backed event ∧ FitsWord idealPrimitives depositMixer wallet event)
      (WalletState.new []) [depositReceived, depositQueued] wallet :=
    Meets.snoc (Meets.snoc Meets.start ⟨trivial, fun _ => by decide⟩ hreceived)
      ⟨trivial, Or.inl (by decide)⟩ hqueued
  exact ⟨wallet, hmeets.run,
    (ledger_exact_at_limits idealPrimitives .ideal depositMixer _ wallet hmeets).1 (beBytes 32 1)⟩

end PartyMix
