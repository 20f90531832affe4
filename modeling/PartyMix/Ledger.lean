import PartyMix.Lib.Transition
import PartyMix.Pool

/-!
# The ledger of one user

What a credit and a debit do to one entry of the ledger, and what follows over runs:
the withdrawn field is the exact sum of the debits, because a debit never exceeds
what is available, and the credited field is at most the sum of the credits.  So
saturation can lose a credit but never lets a user withdraw more than was credited.
-/

namespace PartyMix

open FixedBytes MachineWord Transition

variable {A V : Type}

/-! ### One entry -/

namespace WalletState

theorem lookup_creditUser_of_ne (wallet : WalletState A V) {userIdHash other : Bytes 32}
    (amount : UInt64) (h : other ≠ userIdHash) :
    (wallet.creditUser userIdHash amount).liabilities.lookup other =
      wallet.liabilities.lookup other :=
  Finmap.lookup_insert_of_ne _ h

theorem liabilityEntry_creditUser (wallet : WalletState A V) (userIdHash : Bytes 32)
    (amount : UInt64) :
    (wallet.creditUser userIdHash amount).liabilityEntry userIdHash =
      ⟨(wallet.liabilityEntry userIdHash).userIdHash,
        saturatingAdd (wallet.liabilityEntry userIdHash).credited amount,
        (wallet.liabilityEntry userIdHash).withdrawn⟩ := by
  simp [creditUser, liabilityEntry]

theorem liabilityEntry_congr {wallet next : WalletState A V} {userIdHash : Bytes 32}
    (h : next.liabilities.lookup userIdHash = wallet.liabilities.lookup userIdHash) :
    next.liabilityEntry userIdHash = wallet.liabilityEntry userIdHash := by
  rw [liabilityEntry, h, liabilityEntry]

/-- A debit leaves the other entries alone. -/
theorem lookup_debitUser_of_ne {wallet next : WalletState A V} {userIdHash other : Bytes 32}
    {amount : UInt64} {debited : Bool} (h : wallet.debitUser userIdHash amount = (debited, next))
    (hother : other ≠ userIdHash) :
    next.liabilities.lookup other = wallet.liabilities.lookup other := by
  rcases debitUser_cases h with ⟨-, rfl⟩ | ⟨-, entry, -, -, rfl⟩
  · rfl
  · exact Finmap.lookup_insert_of_ne _ hother

/-- A debit is covered by what is available and raises the withdrawn field. -/
theorem liabilityEntry_debitUser {wallet next : WalletState A V} {userIdHash : Bytes 32}
    {amount : UInt64} (h : wallet.debitUser userIdHash amount = (true, next)) :
    amount.toNat ≤ (wallet.liabilityEntry userIdHash).available.toNat ∧
      next.liabilityEntry userIdHash =
        ⟨(wallet.liabilityEntry userIdHash).userIdHash,
          (wallet.liabilityEntry userIdHash).credited,
          saturatingAdd (wallet.liabilityEntry userIdHash).withdrawn amount⟩ := by
  rcases debitUser_cases h with ⟨habs, -⟩ | ⟨-, entry, hentry, hle, rfl⟩
  · cases habs
  · simp [liabilityEntry, hentry, hle]

/-- A debit is made exactly when there is an entry with enough available. -/
theorem debitUser_eq_true_iff (wallet : WalletState A V) (userIdHash : Bytes 32)
    (amount : UInt64) :
    (wallet.debitUser userIdHash amount).1 = true ↔
      userIdHash ∈ wallet.liabilities ∧
        amount.toNat ≤ (wallet.liabilityEntry userIdHash).available.toNat := by
  unfold debitUser liabilityEntry
  cases hentry : wallet.liabilities.lookup userIdHash with
  | none =>
    have habsent : userIdHash ∉ wallet.liabilities := Finmap.lookup_eq_none.mp hentry
    simp [habsent]
  | some entry =>
    have hpresent : userIdHash ∈ wallet.liabilities := Finmap.mem_of_lookup_eq_some hentry
    by_cases hfunds : entry.available < amount
    · have hlt := UInt64.lt_iff_toNat_lt.mp hfunds
      simp [hpresent, hfunds, hlt]
    · have hle := UInt64.le_iff_toNat_le.mp (UInt64.not_lt.mp hfunds)
      simp [hpresent, hfunds, hle]

end WalletState

/-- No entry has more withdrawn than credited. -/
def NoOverdraft (wallet : WalletState A V) : Prop :=
  ∀ user, (wallet.liabilityEntry user).withdrawn.toNat ≤
    (wallet.liabilityEntry user).credited.toNat

theorem noOverdraft_creditUser {wallet : WalletState A V} (hwallet : NoOverdraft wallet)
    (userIdHash : Bytes 32) (amount : UInt64) :
    NoOverdraft (wallet.creditUser userIdHash amount) := by
  intro user
  by_cases huser : user = userIdHash
  · subst huser
    have hle := hwallet user
    have hlt := (wallet.liabilityEntry user).withdrawn.toNat_lt
    rw [WalletState.liabilityEntry_creditUser]
    simp only [toNat_saturatingAdd]
    omega
  · rw [WalletState.liabilityEntry_congr (wallet.lookup_creditUser_of_ne amount huser)]
    exact hwallet user

theorem noOverdraft_debitUser {wallet next : WalletState A V} (hwallet : NoOverdraft wallet)
    {userIdHash : Bytes 32} {amount : UInt64}
    (h : wallet.debitUser userIdHash amount = (true, next)) : NoOverdraft next := by
  intro user
  by_cases huser : user = userIdHash
  · subst huser
    have hle := hwallet user
    obtain ⟨hfunds, hentry⟩ := WalletState.liabilityEntry_debitUser h
    rw [WalletState.toNat_available] at hfunds
    rw [hentry]
    simp only [toNat_saturatingAdd]
    omega
  · rw [WalletState.liabilityEntry_congr (WalletState.lookup_debitUser_of_ne h huser)]
    exact hwallet user

/-! ### Credits and reservations -/

inductive LedgerEvent where
  | credited (userIdHash : Bytes 32) (amount : UInt64)
  | reserved (userIdHash : Bytes 32) (amount serviceFee : UInt64)
      (result : Except PoolError Unit)

/-- A call of `credit_deposit`, or of `reserve_withdrawal` with its result. -/
def LedgerStep (pool : PoolManager) (wallet : WalletState A V) :
    LedgerEvent → WalletState A V → Prop
  | .credited userIdHash amount, next => next = pool.creditDeposit wallet userIdHash amount
  | .reserved userIdHash amount serviceFee result, next =>
    pool.reserveWithdrawal wallet userIdHash amount serviceFee = (result, next)

def LedgerEvent.userIdHash : LedgerEvent → Bytes 32
  | .credited userIdHash _ => userIdHash
  | .reserved userIdHash _ _ _ => userIdHash

/-- What an event credits to a user. -/
def creditOf (user : Bytes 32) : LedgerEvent → Nat
  | .credited userIdHash amount => if userIdHash = user then amount.toNat else 0
  | .reserved _ _ _ _ => 0

/-- What an event debits from a user: the total of a reservation that returned `Ok`. -/
def debitOf (user : Bytes 32) : LedgerEvent → Nat
  | .reserved userIdHash amount serviceFee (.ok ()) =>
    if userIdHash = user then (saturatingAdd amount serviceFee).toNat else 0
  | _ => 0

def creditTotal (user : Bytes 32) (events : List LedgerEvent) : Nat :=
  (events.map (creditOf user)).sum

def debitTotal (user : Bytes 32) (events : List LedgerEvent) : Nat :=
  (events.map (debitOf user)).sum

@[simp] theorem creditTotal_snoc (user : Bytes 32) (events : List LedgerEvent)
    (event : LedgerEvent) :
    creditTotal user (events ++ [event]) = creditTotal user events + creditOf user event := by
  simp [creditTotal]

@[simp] theorem debitTotal_snoc (user : Bytes 32) (events : List LedgerEvent)
    (event : LedgerEvent) :
    debitTotal user (events ++ [event]) = debitTotal user events + debitOf user event := by
  simp [debitTotal]

section Steps

variable {pool : PoolManager} {wallet next : WalletState A V}

/-- A step writes the entry of its user and nothing else. -/
theorem ledgerStep_frame {event : LedgerEvent} (h : LedgerStep pool wallet event next) :
    (∀ other, other ≠ event.userIdHash →
        next.liabilities.lookup other = wallet.liabilities.lookup other) ∧
      next = { wallet with liabilities := next.liabilities } := by
  cases event with
  | credited userIdHash amount =>
    obtain rfl := h
    refine ⟨?_, rfl⟩
    intro other hother
    exact wallet.lookup_creditUser_of_ne amount hother
  | reserved userIdHash amount serviceFee result =>
    rcases reserveWithdrawal_cases h with ⟨-, hdebit⟩ | ⟨-, rfl⟩
    · constructor
      · intro other hother
        exact WalletState.lookup_debitUser_of_ne hdebit hother
      · -- the debit succeeded, so it wrote the entry and nothing else
        rcases WalletState.debitUser_cases hdebit with ⟨habs, -⟩ | ⟨-, entry, -, -, rfl⟩
        · cases habs
        · rfl
    · exact ⟨fun _ _ => rfl, rfl⟩

theorem ledgerStep_refused {userIdHash : Bytes 32} {amount serviceFee : UInt64}
    {error : PoolError}
    (h : LedgerStep pool wallet (.reserved userIdHash amount serviceFee (.error error)) next) :
    next = wallet := by
  rcases reserveWithdrawal_cases h with ⟨habs, -⟩ | ⟨-, hsame⟩
  · cases habs
  · exact hsame

theorem noOverdraft_ledgerStep {event : LedgerEvent} (hwallet : NoOverdraft wallet)
    (h : LedgerStep pool wallet event next) : NoOverdraft next := by
  cases event with
  | credited userIdHash amount =>
    obtain rfl := h
    exact noOverdraft_creditUser hwallet userIdHash amount
  | reserved userIdHash amount serviceFee result =>
    rcases reserveWithdrawal_cases h with ⟨-, hdebit⟩ | ⟨-, rfl⟩
    · exact noOverdraft_debitUser hwallet hdebit
    · exact hwallet

/-- The entry of a user after some events: no saturation has touched the withdrawn
    field, and it has lowered the credited field if anything. -/
structure EntryBounds (events : List LedgerEvent) (wallet : WalletState A V) (user : Bytes 32) :
    Prop where
  credited_le : (wallet.liabilityEntry user).credited.toNat ≤ creditTotal user events
  withdrawn_eq : (wallet.liabilityEntry user).withdrawn.toNat = debitTotal user events

theorem EntryBounds.unchanged {events : List LedgerEvent} {event : LedgerEvent} {user : Bytes 32}
    (hbounds : EntryBounds events wallet user)
    (hentry : next.liabilityEntry user = wallet.liabilityEntry user)
    (hcredit : creditOf user event = 0) (hdebit : debitOf user event = 0) :
    EntryBounds (events ++ [event]) next user := by
  constructor
  · rw [hentry, creditTotal_snoc, hcredit]
    exact hbounds.credited_le
  · rw [hentry, debitTotal_snoc, hdebit]
    exact hbounds.withdrawn_eq

theorem entryBounds_credited {events : List LedgerEvent} {userIdHash : Bytes 32} {amount : UInt64}
    (hbounds : EntryBounds events wallet userIdHash) :
    EntryBounds (events ++ [.credited userIdHash amount]) (wallet.creditUser userIdHash amount)
      userIdHash := by
  rcases hbounds with ⟨hcredited, hwithdrawn⟩
  constructor
  · rw [wallet.liabilityEntry_creditUser, toNat_saturatingAdd, creditTotal_snoc, creditOf,
      if_pos rfl]
    omega
  · rw [wallet.liabilityEntry_creditUser, debitTotal_snoc]
    exact hwithdrawn

theorem entryBounds_reserved {events : List LedgerEvent} {userIdHash : Bytes 32}
    {amount serviceFee : UInt64} (hbounds : EntryBounds events wallet userIdHash)
    (h : wallet.debitUser userIdHash (saturatingAdd amount serviceFee) = (true, next)) :
    EntryBounds (events ++ [.reserved userIdHash amount serviceFee (.ok ())]) next userIdHash := by
  rcases hbounds with ⟨hcredited, hwithdrawn⟩
  rcases WalletState.liabilityEntry_debitUser h with ⟨hfunds, hentry⟩
  rw [WalletState.toNat_available] at hfunds
  have hcreditedLt := (wallet.liabilityEntry userIdHash).credited.toNat_lt
  have hwithdrawnLt := (wallet.liabilityEntry userIdHash).withdrawn.toNat_lt
  constructor
  · rw [hentry, creditTotal_snoc]
    exact hcredited
  · -- the debit is at most what is available, so the addition does not saturate
    rw [hentry, debitTotal_snoc, debitOf, if_pos rfl, ← hwithdrawn]
    simp only [toNat_saturatingAdd] at hfunds ⊢
    omega

theorem entryBounds_step {events : List LedgerEvent} {event : LedgerEvent} {user : Bytes 32}
    (hbounds : EntryBounds events wallet user) (h : LedgerStep pool wallet event next) :
    EntryBounds (events ++ [event]) next user := by
  by_cases huser : user = event.userIdHash
  · subst huser
    cases event with
    | credited userIdHash amount =>
      obtain rfl := h
      exact entryBounds_credited hbounds
    | reserved userIdHash amount serviceFee result =>
      rcases reserveWithdrawal_cases h with ⟨rfl, hdebit⟩ | ⟨⟨available, rfl⟩, rfl⟩
      · exact entryBounds_reserved hbounds hdebit
      · -- a refused reservation leaves the entry and counts for nothing
        exact hbounds.unchanged rfl rfl rfl
  · -- a step of another user frames the entry
    have hentry := WalletState.liabilityEntry_congr ((ledgerStep_frame h).1 user huser)
    have hcredit : creditOf user event = 0 := by
      cases event with
      | credited userIdHash amount => exact if_neg (Ne.symm huser)
      | reserved _ _ _ _ => rfl
    have hdebit : debitOf user event = 0 := by
      rcases event with _ | ⟨userIdHash, amount, serviceFee, _ | _⟩
      · rfl
      · rfl
      · exact if_neg (Ne.symm huser)
    exact hbounds.unchanged hentry hcredit hdebit

theorem entryBounds_run {zero : V} {events : List LedgerEvent}
    (hrun : Run (LedgerStep pool) (WalletState.new zero) events wallet) (user : Bytes 32) :
    EntryBounds events wallet user := by
  induction hrun with
  | start =>
    constructor <;>
      simp [WalletState.liabilityEntry, WalletState.new, creditTotal, debitTotal]
  | snoc _ hlast ih => exact entryBounds_step ih hlast

theorem noOverdraft_new (zero : V) : NoOverdraft (WalletState.new zero : WalletState A V) :=
  fun _ => Nat.le_refl _

theorem noOverdraft_run {zero : V} {events : List LedgerEvent}
    (hrun : Run (LedgerStep pool) (WalletState.new zero) events wallet) : NoOverdraft wallet := by
  apply hrun.invariant (I := NoOverdraft)
  · intro wallet event next hwallet hstep
    exact noOverdraft_ledgerStep hwallet hstep
  · exact noOverdraft_new zero

end Steps

/-- **No overdraft.**  In every wallet that credits and reservations reach, no entry is
    overdrawn and no user has reserved more than was credited to them; a refused
    reservation changes nothing, and a call changes the entry of its user only. -/
theorem ledger_no_overdraft (pool : PoolManager) (zero : V) (events : List LedgerEvent)
    (wallet : WalletState A V)
    (hrun : Run (LedgerStep pool) (WalletState.new zero) events wallet) :
    (∀ user entry, wallet.liabilities.lookup user = some entry →
        entry.withdrawn ≤ entry.credited) ∧
      (∀ user, debitTotal user events ≤ creditTotal user events) ∧
      ∀ event next, LedgerStep pool wallet event next →
        (∀ userIdHash amount serviceFee error,
            event = .reserved userIdHash amount serviceFee (.error error) → next = wallet) ∧
          (∀ other, other ≠ event.userIdHash →
            next.liabilities.lookup other = wallet.liabilities.lookup other) ∧
          next = { wallet with liabilities := next.liabilities } := by
  refine ⟨?_, ?_, ?_⟩
  · intro user entry hentry
    have hle := noOverdraft_run hrun user
    rw [WalletState.liabilityEntry, hentry] at hle
    exact UInt64.le_iff_toNat_le.mpr hle
  · intro user
    have hle := noOverdraft_run hrun user
    rcases entryBounds_run hrun user with ⟨hcredited, hwithdrawn⟩
    omega
  · intro event next hstep
    refine ⟨?_, ledgerStep_frame hstep⟩
    rintro userIdHash amount serviceFee error rfl
    exact ledgerStep_refused hstep

/-- Two credits of one user, the second of which saturates. -/
def fullWallet : WalletState AccValue ToSAccValue :=
  ((WalletState.new ⟨zeroBytes 32⟩).creditUser (beBytes 32 1) 5).creditUser (beBytes 32 1)
    0xffffffffffffffff

/-- A credit that saturates, and a reservation of all that is left of it. -/
theorem fullLedger_no_overdraft : ∃ events wallet,
    Run (LedgerStep ⟨MixerConfig.default⟩)
        (WalletState.new ⟨zeroBytes 32⟩ : WalletState AccValue ToSAccValue) events wallet ∧
      creditTotal (beBytes 32 1) events = 2 ^ 64 + 4 ∧
      debitTotal (beBytes 32 1) events = 2 ^ 64 - 1 ∧
      debitTotal (beBytes 32 1) events ≤ creditTotal (beBytes 32 1) events := by
  have hcredited : Run (LedgerStep ⟨MixerConfig.default⟩) (WalletState.new ⟨zeroBytes 32⟩)
      [.credited (beBytes 32 1) 5, .credited (beBytes 32 1) 0xffffffffffffffff] fullWallet :=
    Run.snoc (Run.snoc Run.start rfl) rfl
  obtain ⟨wallet, hreserved⟩ : ∃ wallet, LedgerStep ⟨MixerConfig.default⟩ fullWallet
      (.reserved (beBytes 32 1) 0xffffffffffffffff 9 (.ok ())) wallet := ⟨_, rfl⟩
  have hrun := Run.snoc hcredited hreserved
  have hbound := (ledger_no_overdraft _ _ _ wallet hrun).2.1 (beBytes 32 1)
  exact ⟨_, wallet, hrun, by decide, by decide, hbound⟩

end PartyMix
