import Mathlib.Algebra.BigOperators.Group.List.Basic
import Mathlib.Data.List.Forall2
import Mathlib.Data.UInt
import Mathlib.Tactic.Ring

/-!
# Machine words and panicking computations

Rust's `u64` and `u32` arithmetic comes in three families: the plain operators,
which panic on overflow when the crate is built with overflow checks and wrap
otherwise; the `checked_*` methods, which return `None`; and the `saturating_*`
methods.  A computation that may panic is an `Exec` value.  Every operation has
one specification lemma in exact natural numbers, so that proofs about code
built from these operations never look at the bits.
-/

namespace PartyMix.MachineWord

inductive Panic where
  | overflow
  | expect (message : String)
  | sliceIndex
deriving DecidableEq, Repr

abbrev Exec := Except Panic

/-- Whether the plain operators are compiled with overflow checks (`debug`) or
    wrap (`release`). -/
inductive Profile where
  | debug
  | release
deriving DecidableEq, Repr

/-! ### Sequencing -/

section Sequencing

variable {ε α β : Type}

theorem bind_eq_ok {x : Except ε α} {f : α → Except ε β} {b : β} :
    (x >>= f) = .ok b ↔ ∃ a, x = .ok a ∧ f a = .ok b := by
  cases x with
  | error e => simp [bind, Except.bind]
  | ok a => simp [bind, Except.bind]

@[simp] theorem ok_bind (a : α) (f : α → Except ε β) :
    ((Except.ok a : Except ε α) >>= f) = f a := rfl

@[simp] theorem error_bind (e : ε) (f : α → Except ε β) :
    ((Except.error e : Except ε α) >>= f) = .error e := rfl

@[simp] theorem pure_eq_ok (a : α) : (pure a : Except ε α) = .ok a := rfl

theorem foldlM_flatMap {γ : Type} {f : α → List γ} {g : β → γ → Except ε β} {l : List α}
    {init : β} :
    (l.flatMap f).foldlM g init = l.foldlM (fun acc a => (f a).foldlM g acc) init := by
  induction l generalizing init with
  | nil => rfl
  | cons a l ih =>
    rw [List.flatMap_cons, List.foldlM_append, List.foldlM_cons]
    congr
    funext acc
    exact ih

theorem mapM_eq_ok_iff {f : α → Except ε β} {as : List α} {bs : List β} :
    as.mapM f = .ok bs ↔ List.Forall₂ (fun a b => f a = .ok b) as bs := by
  induction as generalizing bs with
  | nil =>
    rw [List.mapM_nil, pure_eq_ok, Except.ok.injEq, List.forall₂_nil_left_iff, eq_comm]
  | cons a as ih =>
    rw [List.mapM_cons, bind_eq_ok, List.forall₂_cons_left_iff]
    constructor
    · rintro ⟨b, hb, h⟩
      obtain ⟨rest, hrest, h⟩ := bind_eq_ok.mp h
      rw [pure_eq_ok, Except.ok.injEq] at h
      exact ⟨b, rest, hb, ih.mp hrest, h.symm⟩
    · rintro ⟨b, rest, hb, hrest, rfl⟩
      exact ⟨b, hb, bind_eq_ok.mpr ⟨rest, ih.mpr hrest, rfl⟩⟩

/-- An observation that every step keeps is kept by `mapM`. -/
theorem map_of_mapM_eq_ok {γ : Type} {f : α → Except ε β} {g : β → γ} {k : α → γ}
    (hf : ∀ a b, f a = .ok b → g b = k a) {as : List α} {bs : List β}
    (h : as.mapM f = .ok bs) : bs.map g = as.map k := by
  induction mapM_eq_ok_iff.mp h with
  | nil => rfl
  | cons hhead hrest ih =>
    rw [List.map_cons, List.map_cons, hf _ _ hhead, ih (mapM_eq_ok_iff.mpr hrest)]

end Sequencing

def expect {α : Type} (message : String) : Option α → Exec α
  | some a => .ok a
  | none => .error (.expect message)

theorem expect_eq_ok {α : Type} {message : String} {o : Option α} {a : α} :
    expect message o = .ok a ↔ o = some a := by
  cases o with
  | none => simp [expect]
  | some a => simp [expect]

theorem toNat_pos_of_ne_zero {count : UInt32} (h : count ≠ 0) : 0 < count.toNat := by
  apply Nat.pos_of_ne_zero
  intro hzero
  exact h (UInt32.toNat_inj.mp hzero)

/-! ### Plain operators -/

/-- The outcome of a plain operator whose exact result is `exact` and whose
    machine result is `wrapped`, on a word with `limit` values. -/
def plainOperator {α : Type} (profile : Profile) (limit exact : Nat) (wrapped : α) : Exec α :=
  if profile = .debug ∧ limit ≤ exact then .error .overflow else .ok wrapped

def addU64 (profile : Profile) (a b : UInt64) : Exec UInt64 :=
  plainOperator profile (2 ^ 64) (a.toNat + b.toNat) (a + b)

def mulU64 (profile : Profile) (a b : UInt64) : Exec UInt64 :=
  plainOperator profile (2 ^ 64) (a.toNat * b.toNat) (a * b)

def addU32 (profile : Profile) (a b : UInt32) : Exec UInt32 :=
  plainOperator profile (2 ^ 32) (a.toNat + b.toNat) (a + b)

/-- `iter().sum::<u64>()`: a left fold with the plain operator. -/
def sumU64 (profile : Profile) (values : List UInt64) : Exec UInt64 :=
  values.foldlM (addU64 profile) 0

theorem plainOperator_eq_ok {α : Type} {profile : Profile} {limit exact : Nat}
    {wrapped result : α} :
    plainOperator profile limit exact wrapped = .ok result ↔
      result = wrapped ∧ (profile = .debug → exact < limit) := by
  unfold plainOperator
  split
  · next h =>
    constructor
    · intro habs
      cases habs
    · rintro ⟨-, hlt⟩
      exact absurd (hlt h.1) (Nat.not_lt.mpr h.2)
  · next h =>
    simp only [not_and, not_le] at h
    constructor
    · intro heq
      exact ⟨(Except.ok.inj heq).symm, h⟩
    · rintro ⟨rfl, -⟩
      rfl

theorem addU64_eq_ok {profile : Profile} {a b c : UInt64} :
    addU64 profile a b = .ok c ↔
      c = a + b ∧ (profile = .debug → a.toNat + b.toNat < 2 ^ 64) :=
  plainOperator_eq_ok

theorem mulU64_eq_ok {profile : Profile} {a b c : UInt64} :
    mulU64 profile a b = .ok c ↔
      c = a * b ∧ (profile = .debug → a.toNat * b.toNat < 2 ^ 64) :=
  plainOperator_eq_ok

/-- The plain sum wraps; with overflow checks it returns exactly when no partial
    sum overflows, which for unsigned words is when the total does not. -/
theorem foldlM_addU64_eq_ok {profile : Profile} {values : List UInt64} {acc total : UInt64} :
    values.foldlM (addU64 profile) acc = .ok total ↔
      total.toNat = (acc.toNat + (values.map UInt64.toNat).sum) % 2 ^ 64 ∧
        (profile = .debug → acc.toNat + (values.map UInt64.toNat).sum < 2 ^ 64) := by
  induction values generalizing acc with
  | nil =>
    have hlt := acc.toNat_lt
    rw [List.foldlM_nil, pure_eq_ok, Except.ok.injEq, ← UInt64.toNat_inj]
    simp only [List.map_nil, List.sum_nil, Nat.add_zero]
    rw [Nat.mod_eq_of_lt hlt]
    constructor
    · intro heq
      exact ⟨heq.symm, fun _ => hlt⟩
    · rintro ⟨heq, -⟩
      exact heq.symm
  | cons value values ih =>
    simp only [List.foldlM_cons, bind_eq_ok, addU64_eq_ok, ih, List.map_cons, List.sum_cons]
    constructor
    · -- the first step is exact in a debug build, so the rest starts from the exact sum
      rintro ⟨next, ⟨rfl, hchecked⟩, htotal, hexact⟩
      rw [UInt64.toNat_add] at htotal hexact
      refine ⟨by omega, ?_⟩
      intro hdebug
      have hhead := hchecked hdebug
      have htail := hexact hdebug
      omega
    · rintro ⟨htotal, hexact⟩
      refine ⟨acc + value, ⟨rfl, ?_⟩, ?_, ?_⟩
      · intro hdebug
        have hall := hexact hdebug
        omega
      · rw [UInt64.toNat_add]
        omega
      · intro hdebug
        have hall := hexact hdebug
        rw [UInt64.toNat_add]
        omega

theorem sumU64_eq_ok {profile : Profile} {values : List UInt64} {total : UInt64} :
    sumU64 profile values = .ok total ↔
      total.toNat = (values.map UInt64.toNat).sum % 2 ^ 64 ∧
        (profile = .debug → (values.map UInt64.toNat).sum < 2 ^ 64) := by
  rw [sumU64, foldlM_addU64_eq_ok]
  simp

/-- A sum of words that are themselves what is left of exact sums. -/
theorem addU64_of_reduced {profile : Profile} {a b c : UInt64} {m n : Nat}
    (ha : a.toNat = m % 2 ^ 64) (hm : profile = .debug → m < 2 ^ 64)
    (hb : b.toNat = n % 2 ^ 64) (hn : profile = .debug → n < 2 ^ 64) :
    addU64 profile a b = .ok c ↔
      c.toNat = (m + n) % 2 ^ 64 ∧ (profile = .debug → m + n < 2 ^ 64) := by
  have hsum : c = a + b ↔ c.toNat = (m + n) % 2 ^ 64 := by
    rw [← UInt64.toNat_inj, UInt64.toNat_add, ha, hb, ← Nat.add_mod]
  rw [addU64_eq_ok, hsum]
  apply and_congr_right
  intro _
  apply forall_congr'
  intro hdebug
  rw [ha, hb, Nat.mod_eq_of_lt (hm hdebug), Nat.mod_eq_of_lt (hn hdebug)]

theorem exists_reduced (n : Nat) : ∃ word : UInt64, word.toNat = n % 2 ^ 64 :=
  ⟨UInt64.ofNat n, UInt64.toNat_ofNat'⟩

/-! ### Checked operators -/

def checkedAdd (a b : UInt64) : Option UInt64 :=
  if a.toNat + b.toNat < 2 ^ 64 then some (a + b) else none

def checkedSub (a b : UInt64) : Option UInt64 :=
  if b.toNat ≤ a.toNat then some (a - b) else none

theorem checkedAdd_eq_some {a b c : UInt64} :
    checkedAdd a b = some c ↔ c.toNat = a.toNat + b.toNat := by
  unfold checkedAdd
  split
  · next h =>
    rw [Option.some.injEq, ← UInt64.toNat_inj, UInt64.toNat_add, Nat.mod_eq_of_lt h]
    exact eq_comm
  · next h =>
    have hc := c.toNat_lt
    constructor
    · intro habs
      cases habs
    · intro habs
      omega

theorem checkedSub_eq_some {a b c : UInt64} :
    checkedSub a b = some c ↔ c.toNat + b.toNat = a.toNat := by
  unfold checkedSub
  split
  · next h =>
    rw [Option.some.injEq, ← UInt64.toNat_inj, UInt64.toNat_sub_of_le _ _ h]
    omega
  · next h =>
    constructor
    · intro habs
      cases habs
    · intro habs
      omega

theorem foldlM_checkedAdd_eq_some {values : List UInt64} {acc total : UInt64} :
    values.foldlM checkedAdd acc = some total ↔
      total.toNat = acc.toNat + (values.map UInt64.toNat).sum := by
  induction values generalizing acc with
  | nil =>
    simp only [List.foldlM_nil, List.map_nil, List.sum_nil, Nat.add_zero]
    rw [show (pure acc : Option UInt64) = some acc from rfl, Option.some.injEq,
      ← UInt64.toNat_inj]
    exact eq_comm
  | cons value values ih =>
    simp only [List.foldlM_cons, List.map_cons, List.sum_cons, Option.bind_eq_bind,
      Option.bind_eq_some_iff, ih, checkedAdd_eq_some]
    constructor
    · rintro ⟨next, hnext, htotal⟩
      omega
    · intro htotal
      have hlt := total.toNat_lt
      refine ⟨acc + value, ?_, ?_⟩ <;> rw [UInt64.toNat_add, Nat.mod_eq_of_lt (by omega)]
      omega

/-! ### Saturating operators -/

def saturatingAdd (a b : UInt64) : UInt64 :=
  if a.toNat + b.toNat < 2 ^ 64 then a + b else UInt64.ofNat (2 ^ 64 - 1)

def saturatingSub (a b : UInt64) : UInt64 :=
  if b.toNat ≤ a.toNat then a - b else 0

theorem toNat_saturatingAdd (a b : UInt64) :
    (saturatingAdd a b).toNat = min (a.toNat + b.toNat) (2 ^ 64 - 1) := by
  unfold saturatingAdd
  split
  · next h =>
    rw [UInt64.toNat_add, Nat.mod_eq_of_lt h]
    omega
  · next h =>
    have hmax : (UInt64.ofNat (2 ^ 64 - 1)).toNat = 2 ^ 64 - 1 := by decide
    rw [hmax]
    omega

theorem le_saturatingAdd (a b : UInt64) : a.toNat ≤ (saturatingAdd a b).toNat := by
  have hlt := a.toNat_lt
  rw [toNat_saturatingAdd]
  omega

theorem toNat_saturatingSub (a b : UInt64) :
    (saturatingSub a b).toNat = a.toNat - b.toNat := by
  unfold saturatingSub
  split
  · next h => exact UInt64.toNat_sub_of_le _ _ h
  · next h =>
    rw [Nat.sub_eq_zero_of_le (by omega)]
    rfl

end PartyMix.MachineWord
