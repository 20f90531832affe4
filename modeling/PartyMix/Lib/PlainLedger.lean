import Mathlib.Algebra.Ring.Nat
import Mathlib.Data.List.Nodup
import Mathlib.Logic.Function.Basic
import PartyMix.Lib.Transition

/-!
# A plain ledger

What payments look like when they are posted one after another: an account has one
current state, and a coin is made once, with an amount, and taken once.  An entry is
posted from the current state of its account and on live coins, makes coins that have
never been there, and leaves no more than it takes.

The ledger after a run is read off the entries.  A state that an entry left is current
unless an entry has started from it (`current_of_after`), a coin that an entry made is
live unless an entry has taken it (`circulates_of_made`), and an id that no entry has
made is still unborn (`unborn_of_run`).
-/

namespace PartyMix.PlainLedger

open Transition

inductive CoinStatus (V : Type*)
  | unborn
  | live (amount : V)
  | spent

/-- A posting: the state of an account before and after it, the coins taken and made. -/
structure Entry (K S I V : Type*) where
  account : K
  before : S
  after : S
  taken : List (I × V)
  made : List (I × V)

structure Ledger (K S I V : Type*) where
  account : K → S
  coin : I → CoinStatus V

variable {K S I V : Type*} [DecidableEq K] [DecidableEq I]

def opened (account : K → S) (coins : List (I × V)) : Ledger K S I V where
  account := account
  coin id := (coins.lookup id).elim .unborn .live

omit [DecidableEq K] in
theorem opened_coin (account : K → S) (coins : List (I × V)) (id : I) :
    (opened account coins).coin id = (coins.lookup id).elim .unborn .live := rfl

def Ledger.post (ledger : Ledger K S I V) (entry : Entry K S I V) : Ledger K S I V where
  account := Function.update ledger.account entry.account entry.after
  coin id :=
    if id ∈ entry.taken.map Prod.fst then .spent
    else (entry.made.lookup id).elim (ledger.coin id) .live

theorem Ledger.post_account (ledger : Ledger K S I V) (entry : Entry K S I V) :
    (ledger.post entry).account = Function.update ledger.account entry.account entry.after :=
  rfl

theorem Ledger.post_coin (ledger : Ledger K S I V) (entry : Entry K S I V) (id : I) :
    (ledger.post entry).coin id =
      if id ∈ entry.taken.map Prod.fst then .spent
      else (entry.made.lookup id).elim (ledger.coin id) .live := rfl

/-- The rules of a posting. -/
structure Posts (worth : S → ℕ) (amount : V → ℕ) (ledger : Ledger K S I V)
    (entry : Entry K S I V) (next : Ledger K S I V) : Prop where
  current : ledger.account entry.account = entry.before
  taken : ∀ coin ∈ entry.taken, ledger.coin coin.1 = .live coin.2
  takenOnce : (entry.taken.map Prod.fst).Nodup
  made : ∀ coin ∈ entry.made, ledger.coin coin.1 = .unborn
  madeOnce : (entry.made.map Prod.fst).Nodup
  value : worth entry.after + (entry.made.map fun coin => amount coin.2).sum ≤
    worth entry.before + (entry.taken.map fun coin => amount coin.2).sum
  posted : next = ledger.post entry

variable {worth : S → ℕ} {amount : V → ℕ} {start ledger next : Ledger K S I V}
  {entry : Entry K S I V} {entries : List (Entry K S I V)}

/-! ### One coin list -/

omit [DecidableEq K] in
/-- A coin is found under its id, where no other coin is listed under it. -/
theorem lookup_of_mem {coins : List (I × V)}
    (honce : ∀ coin ∈ coins, ∀ other ∈ coins, coin.1 = other.1 → coin = other)
    {coin : I × V} (hcoin : coin ∈ coins) : coins.lookup coin.1 = some coin.2 := by
  induction coins with
  | nil => cases hcoin
  | cons first rest ih =>
    by_cases hid : coin.1 = first.1
    · obtain rfl := honce coin hcoin first List.mem_cons_self hid
      exact List.lookup_cons_self
    · have hrest : coin ∈ rest := by
        rcases List.mem_cons.mp hcoin with rfl | hold
        · exact absurd rfl hid
        · exact hold
      rw [List.lookup_cons, beq_false_of_ne hid]
      exact ih (fun one hone other hother => honce one (List.mem_cons_of_mem _ hone) other
        (List.mem_cons_of_mem _ hother)) hrest

omit [DecidableEq K] in
theorem lookup_of_notMem {coins : List (I × V)} {id : I} (hid : id ∉ coins.map Prod.fst) :
    coins.lookup id = none := by
  rw [List.lookup_eq_none_iff]
  intro coin hcoin
  rw [bne_iff_ne]
  rintro rfl
  exact hid (List.mem_map_of_mem hcoin)

omit [DecidableEq K] in
theorem opened_live {account : K → S} {coins : List (I × V)}
    (honce : ∀ coin ∈ coins, ∀ other ∈ coins, coin.1 = other.1 → coin = other)
    {coin : I × V} (hcoin : coin ∈ coins) :
    (opened account coins).coin coin.1 = .live coin.2 := by
  rw [opened_coin, lookup_of_mem honce hcoin]
  rfl

omit [DecidableEq K] in
theorem opened_unborn {account : K → S} {coins : List (I × V)} {id : I}
    (hid : id ∉ coins.map Prod.fst) : (opened account coins).coin id = .unborn := by
  rw [opened_coin, lookup_of_notMem hid]
  rfl

/-! ### One posting -/

theorem Posts.coin_of_taken (h : Posts worth amount ledger entry next) {id : I}
    (hid : id ∈ entry.taken.map Prod.fst) : next.coin id = .spent := by
  rw [h.posted, Ledger.post_coin, if_pos hid]

/-- A coin that is made is not among the coins taken, since those are live. -/
theorem Posts.coin_of_made (h : Posts worth amount ledger entry next) {coin : I × V}
    (hcoin : coin ∈ entry.made) : next.coin coin.1 = .live coin.2 := by
  have hnot : coin.1 ∉ entry.taken.map Prod.fst := by
    intro habs
    obtain ⟨other, hother, hsame⟩ := List.mem_map.mp habs
    have hlive := h.taken other hother
    rw [hsame, h.made coin hcoin] at hlive
    cases hlive
  have honce : ∀ coin ∈ entry.made, ∀ other ∈ entry.made, coin.1 = other.1 → coin = other :=
    fun _ hone _ hother hsame => List.inj_on_of_nodup_map h.madeOnce hone hother hsame
  rw [h.posted, Ledger.post_coin, if_neg hnot, lookup_of_mem honce hcoin]
  rfl

theorem Posts.coin_of_other (h : Posts worth amount ledger entry next) {id : I}
    (htaken : id ∉ entry.taken.map Prod.fst) (hmade : id ∉ entry.made.map Prod.fst) :
    next.coin id = ledger.coin id := by
  rw [h.posted, Ledger.post_coin, if_neg htaken, lookup_of_notMem hmade]
  rfl

/-- An id with a coin behind it is not made again. -/
theorem Posts.notMem_made (h : Posts worth amount ledger entry next) {id : I}
    (hborn : ledger.coin id ≠ .unborn) : id ∉ entry.made.map Prod.fst := by
  intro habs
  obtain ⟨coin, hcoin, rfl⟩ := List.mem_map.mp habs
  exact hborn (h.made coin hcoin)

/-- Only a live coin is taken. -/
theorem Posts.live_of_taken (h : Posts worth amount ledger entry next) {id : I}
    (hid : id ∈ entry.taken.map Prod.fst) : ∃ v, ledger.coin id = .live v := by
  obtain ⟨coin, hcoin, rfl⟩ := List.mem_map.mp hid
  exact ⟨coin.2, h.taken coin hcoin⟩

/-! ### The state of an account -/

/-- The state is the current one of the account, or an entry has started from it. -/
def Current (entries : List (Entry K S I V)) (ledger : Ledger K S I V) (id : K) (state : S) :
    Prop :=
  ledger.account id = state ∨ ∃ entry ∈ entries, entry.account = id ∧ entry.before = state

theorem Current.snoc {id : K} {state : S} (hcurrent : Current entries ledger id state)
    (h : Posts worth amount ledger entry next) : Current (entries ++ [entry]) next id state := by
  rcases hcurrent with hstate | ⟨other, hother, hsame⟩
  · by_cases hid : id = entry.account
    · refine Or.inr ⟨entry, List.mem_append_right _ (List.mem_singleton_self _), hid.symm, ?_⟩
      rw [← h.current, ← hid, hstate]
    · left
      rw [h.posted, Ledger.post_account, Function.update_of_ne hid, hstate]
  · exact Or.inr ⟨other, List.mem_append_left _ hother, hsame⟩

theorem current_of_start (hrun : Run (Posts worth amount) start entries ledger) (id : K) :
    Current entries ledger id (start.account id) := by
  induction hrun with
  | start => exact Or.inl rfl
  | snoc _ hlast ih => exact ih.snoc hlast

theorem current_of_after (hrun : Run (Posts worth amount) start entries ledger)
    (hentry : entry ∈ entries) : Current entries ledger entry.account entry.after := by
  induction hrun with
  | start => cases hentry
  | @snoc entries ledger next last _ hlast ih =>
    rcases List.mem_append.mp hentry with hold | hnew
    · exact (ih hold).snoc hlast
    · obtain rfl := List.mem_singleton.mp hnew
      left
      rw [hlast.posted, Ledger.post_account, Function.update_self]

/-! ### The status of a coin -/

/-- The coin is live with its amount, or spent by an entry. -/
def Circulates (entries : List (Entry K S I V)) (ledger : Ledger K S I V) (coin : I × V) :
    Prop :=
  ledger.coin coin.1 = .live coin.2 ∨
    ledger.coin coin.1 = .spent ∧ ∃ entry ∈ entries, coin.1 ∈ entry.taken.map Prod.fst

theorem Circulates.snoc {coin : I × V} (hcoin : Circulates entries ledger coin)
    (h : Posts worth amount ledger entry next) : Circulates (entries ++ [entry]) next coin := by
  have hborn : ledger.coin coin.1 ≠ .unborn := by
    rcases hcoin with hlive | ⟨hspent, -⟩
    · rw [hlive]
      exact nofun
    · rw [hspent]
      exact nofun
  by_cases htaken : coin.1 ∈ entry.taken.map Prod.fst
  · -- the entry takes the coin
    exact Or.inr ⟨h.coin_of_taken htaken, entry,
      List.mem_append_right _ (List.mem_singleton_self _), htaken⟩
  · rw [Circulates, h.coin_of_other htaken (h.notMem_made hborn)]
    rcases hcoin with hlive | ⟨hspent, other, hother, hmem⟩
    · exact Or.inl hlive
    · exact Or.inr ⟨hspent, other, List.mem_append_left _ hother, hmem⟩

theorem circulates_of_start (hrun : Run (Posts worth amount) start entries ledger)
    {coin : I × V} (hcoin : start.coin coin.1 = .live coin.2) :
    Circulates entries ledger coin := by
  induction hrun with
  | start => exact Or.inl hcoin
  | snoc _ hlast ih => exact ih.snoc hlast

theorem circulates_of_made (hrun : Run (Posts worth amount) start entries ledger)
    (hentry : entry ∈ entries) {coin : I × V} (hcoin : coin ∈ entry.made) :
    Circulates entries ledger coin := by
  induction hrun with
  | start => cases hentry
  | snoc _ hlast ih =>
    rcases List.mem_append.mp hentry with hold | hnew
    · exact (ih hold).snoc hlast
    · obtain rfl := List.mem_singleton.mp hnew
      exact Or.inl (hlast.coin_of_made hcoin)

theorem unborn_of_run (hrun : Run (Posts worth amount) start entries ledger) {id : I}
    (hstart : start.coin id = .unborn)
    (hmade : ∀ entry ∈ entries, id ∉ entry.made.map Prod.fst) : ledger.coin id = .unborn := by
  induction hrun with
  | start => exact hstart
  | @snoc entries ledger next last _ hlast ih =>
    have hunborn := ih fun entry hentry => hmade entry (List.mem_append_left _ hentry)
    have hnot : id ∉ last.taken.map Prod.fst := by
      intro habs
      obtain ⟨v, hlive⟩ := hlast.live_of_taken habs
      rw [hunborn] at hlive
      cases hlive
    have hother := hmade last (List.mem_append_right _ (List.mem_singleton_self _))
    rw [hlast.coin_of_other hnot hother, hunborn]

end PartyMix.PlainLedger
