import PartyMix.Lib.Transition
import PartyMix.PaymentAcceptance
import PartyMix.Pool

/-!
# The primary pool account

`primary_pool_account` takes the first account with the flag, in an order of the map
that nothing fixes.  What makes the answer well defined is that `create_pool_account`
clears the flag of the others before it inserts a primary account: over any calls
with fresh ids, the flagged accounts are exactly the last one asked for as primary.
-/

namespace PartyMix

open FiniteMap FixedBytes Transition

variable {A V : Type} {P : Primitives A V} {zero : V} {pool : PoolManager}
  {wallet next : WalletState A V}

/-- A `create_pool_account` call and the account it returned. -/
structure CreateCall (A V : Type) where
  acctId : PublicKey
  label : String
  isPrimary : Bool
  created : PoolAccount A V

variable {calls : List (CreateCall A V)} {call : CreateCall A V}

/-- The call returned the account, under an id that no account has yet. -/
def CreateStep (P : Primitives A V) (zero : V) (pool : PoolManager) (wallet : WalletState A V)
    (call : CreateCall A V) (next : WalletState A V) : Prop :=
  call.created.id ∉ wallet.poolAccounts ∧
    pool.createPoolAccount P zero wallet call.acctId call.label call.isPrimary call.created.id =
      (call.created, next)

/-- The account returned by the last call that asked for a primary one. -/
def lastPrimary (calls : List (CreateCall A V)) : Option (PoolAccount A V) :=
  ((calls.filter CreateCall.isPrimary).getLast?).map CreateCall.created

theorem lastPrimary_snoc (calls : List (CreateCall A V)) (call : CreateCall A V) :
    lastPrimary (calls ++ [call]) =
      if call.isPrimary then some call.created else lastPrimary calls := by
  unfold lastPrimary
  cases hprimary : call.isPrimary with
  | true => simp [List.filter_append, hprimary]
  | false => simp [List.filter_append, hprimary]

/-! ### The invariant -/

/-- The accounts with the flag are exactly the last primary one, under its own id. -/
def FlagsLast (calls : List (CreateCall A V)) (wallet : WalletState A V) : Prop :=
  ∀ id account, (wallet.poolAccounts.lookup id = some account ∧ account.isPrimary = true) ↔
    (lastPrimary calls = some account ∧ account.id = id)

theorem flagsLast_new : FlagsLast [] (WalletState.new zero : WalletState A V) := by
  intro id account
  constructor
  · rintro ⟨hid, -⟩
    cases hid
  · rintro ⟨hlast, -⟩
    cases hlast

theorem flagsLast_primary (h : CreateStep P zero pool wallet call next)
    (hprimary : call.isPrimary = true) : FlagsLast (calls ++ [call]) next := by
  obtain ⟨-, hcreate⟩ := h
  obtain ⟨-, hflag, hlookup⟩ := lookup_createPoolAccount hcreate
  intro id account
  rw [hlookup, lastPrimary_snoc, hprimary, if_pos rfl, Option.some_inj]
  by_cases hid : id = call.created.id
  · -- the new account has the flag and its own id
    rw [if_pos hid, Option.some_inj]
    constructor
    · rintro ⟨rfl, -⟩
      exact ⟨rfl, hid.symm⟩
    · rintro ⟨rfl, -⟩
      exact ⟨rfl, hflag.trans hprimary⟩
  · -- the others have lost it
    rw [if_neg hid]
    constructor
    · rintro ⟨hold, hcleared⟩
      obtain ⟨existing, -, rfl⟩ := Option.map_eq_some_iff.mp hold
      simp at hcleared
    · rintro ⟨rfl, hsame⟩
      exact absurd hsame.symm hid

theorem flagsLast_plain (hflags : FlagsLast calls wallet)
    (h : CreateStep P zero pool wallet call next) (hplain : call.isPrimary = false) :
    FlagsLast (calls ++ [call]) next := by
  obtain ⟨hfresh, hcreate⟩ := h
  obtain ⟨-, hflag, hlookup⟩ := lookup_createPoolAccount hcreate
  intro id account
  rw [hlookup, lastPrimary_snoc, hplain, if_neg Bool.false_ne_true]
  by_cases hid : id = call.created.id
  · -- the new account has no flag, and the last primary one has another id
    rw [if_pos hid, Option.some_inj]
    constructor
    · rintro ⟨rfl, hset⟩
      rw [hflag, hplain] at hset
      exact absurd hset Bool.false_ne_true
    · rintro ⟨hlast, hsame⟩
      obtain ⟨hheld, -⟩ := (hflags id account).mpr ⟨hlast, hsame⟩
      rw [hid] at hheld
      exact absurd (Finmap.mem_of_lookup_eq_some hheld) hfresh
  · rw [if_neg hid]
    simpa using hflags id account

theorem flagsLast_createStep (hflags : FlagsLast calls wallet)
    (h : CreateStep P zero pool wallet call next) : FlagsLast (calls ++ [call]) next := by
  cases hprimary : call.isPrimary with
  | true => exact flagsLast_primary h hprimary
  | false => exact flagsLast_plain hflags h hprimary

theorem flagsLast_run (hrun : Run (CreateStep P zero pool) (WalletState.new zero) calls wallet) :
    FlagsLast calls wallet := by
  induction hrun with
  | start => exact flagsLast_new
  | snoc _ hlast ih => exact flagsLast_createStep ih hlast

/-! ### What the invariant gives -/

/-- A call writes nothing but the flag of the accounts that are there. -/
theorem lookup_createStep (h : CreateStep P zero pool wallet call next) {id : Uuid}
    {account : PoolAccount A V} (hid : wallet.poolAccounts.lookup id = some account) :
    ∃ flag, next.poolAccounts.lookup id = some { account with isPrimary := flag } := by
  obtain ⟨hfresh, hcreate⟩ := h
  obtain ⟨-, -, hlookup⟩ := lookup_createPoolAccount hcreate
  have hne : id ≠ call.created.id := by
    rintro rfl
    exact hfresh (Finmap.mem_of_lookup_eq_some hid)
  rw [hlookup, if_neg hne, hid]
  exact ⟨_, rfl⟩

/-- The first flagged account is the last primary one in every order. -/
theorem primaryPoolAccount_eq_lastPrimary (hflags : FlagsLast calls wallet)
    (order : IterOrder Uuid (PoolAccount A V)) :
    wallet.primaryPoolAccount order = lastPrimary calls := by
  cases hfound : wallet.primaryPoolAccount order with
  | some account =>
    obtain ⟨id, hid⟩ := (order.mem_values _).mp (List.mem_of_find?_eq_some hfound)
    exact ((hflags id account).mp ⟨hid, List.find?_some hfound⟩).1.symm
  | none =>
    cases hlast : lastPrimary calls with
    | none => rfl
    | some account =>
      obtain ⟨hheld, hflag⟩ := (hflags account.id account).mpr ⟨hlast, rfl⟩
      have hmem := (order.mem_values _).mpr ⟨account.id, hheld⟩
      exact absurd hflag (List.find?_eq_none.mp hfound account hmem)

/-- **The primary account.**  After any calls with fresh ids at most one account is
    primary, and it is the one that the last call for a primary account returned, in
    every order of the map; and a call changes nothing but the flag of the accounts
    before it. -/
theorem primary_account_is_last (P : Primitives A V) (zero : V) (pool : PoolManager)
    (calls : List (CreateCall A V)) (wallet : WalletState A V)
    (hrun : Run (CreateStep P zero pool) (WalletState.new zero) calls wallet) :
    (∀ id other account otherAccount, wallet.poolAccounts.lookup id = some account →
      wallet.poolAccounts.lookup other = some otherAccount → account.isPrimary = true →
      otherAccount.isPrimary = true → id = other) ∧
    (∀ order account, pool.primaryAccount order wallet = .ok account ↔
      lastPrimary calls = some account) ∧
    ∀ call next, CreateStep P zero pool wallet call next →
      ∀ id account, wallet.poolAccounts.lookup id = some account →
        ∃ flag, next.poolAccounts.lookup id = some { account with isPrimary := flag } := by
  have hflags := flagsLast_run hrun
  refine ⟨?_, ?_, ?_⟩
  · intro id other account otherAccount hid hother hflag hotherFlag
    obtain ⟨hlast, rfl⟩ := (hflags id account).mp ⟨hid, hflag⟩
    obtain ⟨hotherLast, rfl⟩ := (hflags other otherAccount).mp ⟨hother, hotherFlag⟩
    rw [hlast] at hotherLast
    rw [Option.some_inj.mp hotherLast]
  · intro order account
    rw [PoolManager.primaryAccount, primaryPoolAccount_eq_lastPrimary hflags order]
    cases lastPrimary calls with
    | none => simp
    | some last => simp
  · intro call next hstep id account hid
    exact lookup_createStep hstep hid

def sampleCall (id : Nat) (label : String) (isPrimary : Bool) :
    CreateCall AccValue ToSAccValue :=
  ⟨sampleKey, label, isPrimary, ⟨⟨beBytes 16 id⟩, label, sampleKey, sampleState 0, [], isPrimary⟩⟩

def SampleStep : WalletState AccValue ToSAccValue → CreateCall AccValue ToSAccValue →
    WalletState AccValue ToSAccValue → Prop :=
  CreateStep permissivePrimitives ⟨zeroBytes 32⟩ ⟨MixerConfig.default⟩

/-- The wallet after the call. -/
def afterCall (wallet : WalletState AccValue ToSAccValue)
    (call : CreateCall AccValue ToSAccValue) : WalletState AccValue ToSAccValue :=
  (PoolManager.createPoolAccount permissivePrimitives ⟨zeroBytes 32⟩ ⟨MixerConfig.default⟩ wallet
    call.acctId call.label call.isPrimary call.created.id).2

def onePrimary : WalletState AccValue ToSAccValue :=
  afterCall (WalletState.new ⟨zeroBytes 32⟩) (sampleCall 1 "first" true)

def twoPrimaries : WalletState AccValue ToSAccValue :=
  afterCall onePrimary (sampleCall 2 "second" true)

def plainBehind : WalletState AccValue ToSAccValue :=
  afterCall twoPrimaries (sampleCall 3 "plain" false)

theorem sampleCalls_run :
    Run SampleStep (WalletState.new ⟨zeroBytes 32⟩)
      [sampleCall 1 "first" true, sampleCall 2 "second" true, sampleCall 3 "plain" false]
      plainBehind := by
  have hfirst : Run SampleStep (WalletState.new ⟨zeroBytes 32⟩) [sampleCall 1 "first" true]
      onePrimary := Run.snoc Run.start ⟨by decide, rfl⟩
  have hsecond : Run SampleStep (WalletState.new ⟨zeroBytes 32⟩)
      ([sampleCall 1 "first" true] ++ [sampleCall 2 "second" true]) twoPrimaries :=
    Run.snoc hfirst ⟨by decide, rfl⟩
  exact Run.snoc hsecond ⟨by decide, rfl⟩

/-- Of two accounts created as primary the second one is returned, in every order, and
    the first one stays without the flag. -/
theorem second_primary_returned :
    (∀ order, PoolManager.primaryAccount ⟨MixerConfig.default⟩ order plainBehind =
        .ok (sampleCall 2 "second" true).created) ∧
      plainBehind.poolAccounts.lookup ⟨beBytes 16 1⟩ =
        some (sampleCall 1 "first" false).created := by
  have hresult := (primary_account_is_last permissivePrimitives ⟨zeroBytes 32⟩
    ⟨MixerConfig.default⟩ _ _ sampleCalls_run).2.1
  refine ⟨?_, by decide⟩
  intro order
  exact (hresult order _).mpr rfl

end PartyMix
