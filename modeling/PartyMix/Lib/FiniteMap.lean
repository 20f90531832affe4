import Mathlib.Algebra.Order.BigOperators.Group.Multiset
import Mathlib.Data.Finmap

/-!
# Finite maps

`mapValues f m` changes every value of a map in place.  `total measure m` adds up a
natural number for every value: an insertion adds the new value's number and takes
away that of the value it replaces, so a total is followed through a program one key
at a time.
-/

namespace PartyMix.FiniteMap

variable {κ ν : Type*}

def mapValues {ν' : Type*} (f : ν → ν') (m : Finmap fun _ : κ => ν) : Finmap fun _ : κ => ν' where
  entries := m.entries.map fun entry => ⟨entry.1, f entry.2⟩
  nodupKeys := by
    rw [← Multiset.nodup_keys, Multiset.keys, Multiset.map_map]
    exact Multiset.nodup_keys.mpr m.nodupKeys

def total (measure : ν → Nat) (m : Finmap fun _ : κ => ν) : Nat :=
  (m.entries.map fun entry => measure entry.2).sum

variable [DecidableEq κ]

theorem lookup_mapValues {ν' : Type*} (f : ν → ν') (m : Finmap fun _ : κ => ν) (key : κ) :
    (mapValues f m).lookup key = (m.lookup key).map f := by
  apply Option.ext
  intro value
  rw [Finmap.lookup_eq_some_iff, Option.map_eq_some_iff, mapValues, Multiset.mem_map]
  constructor
  · rintro ⟨⟨other, old⟩, hold, hentry⟩
    obtain ⟨rfl, hvalue⟩ := Sigma.mk.inj hentry
    exact ⟨old, Finmap.lookup_eq_some_iff.mpr hold, eq_of_heq hvalue⟩
  · rintro ⟨old, hold, rfl⟩
    exact ⟨⟨key, old⟩, Finmap.lookup_eq_some_iff.mp hold, rfl⟩

/-- What a map holds at a key; nothing when the key is absent. -/
def valueAt (measure : ν → Nat) (m : Finmap fun _ : κ => ν) (key : κ) : Nat :=
  ((m.lookup key).map measure).getD 0

theorem total_insert_of_notMem (measure : ν → Nat) {m : Finmap fun _ : κ => ν} {key : κ} (value : ν)
    (h : key ∉ m) : total measure (m.insert key value) = measure value + total measure m := by
  rw [total, Finmap.entries_insert_of_notMem h, Multiset.map_cons, Multiset.sum_cons]
  rfl

theorem erase_of_lookup_eq_none {m : Finmap fun _ : κ => ν} {key : κ} (h : m.lookup key = none) :
    m.erase key = m := by
  apply Finmap.ext_lookup
  intro other
  by_cases hkey : other = key
  · rw [hkey, Finmap.lookup_erase, h]
  · exact Finmap.lookup_erase_ne hkey

/-- An insertion forgets what the map held at the key. -/
theorem insert_erase (m : Finmap fun _ : κ => ν) (key : κ) (value : ν) :
    (m.erase key).insert key value = m.insert key value := by
  apply Finmap.ext_lookup
  intro other
  by_cases hkey : other = key
  · rw [hkey, Finmap.lookup_insert, Finmap.lookup_insert]
  · rw [Finmap.lookup_insert_of_ne _ hkey, Finmap.lookup_insert_of_ne _ hkey,
      Finmap.lookup_erase_ne hkey]

theorem insert_of_lookup_eq_some {m : Finmap fun _ : κ => ν} {key : κ} {value : ν}
    (h : m.lookup key = some value) : m.insert key value = m := by
  apply Finmap.ext_lookup
  intro other
  by_cases hkey : other = key
  · rw [hkey, Finmap.lookup_insert, h]
  · exact Finmap.lookup_insert_of_ne _ hkey

/-- A map is its erasure at a key with what it holds there inserted again. -/
theorem total_erase_add_valueAt (measure : ν → Nat) (m : Finmap fun _ : κ => ν) (key : κ) :
    total measure (m.erase key) + valueAt measure m key = total measure m := by
  unfold valueAt
  cases hlookup : m.lookup key with
  | none =>
    rw [erase_of_lookup_eq_none hlookup]
    rfl
  | some value =>
    have hinsert := total_insert_of_notMem measure value
      (Finmap.notMem_erase_self (a := key) (s := m))
    rw [insert_erase, insert_of_lookup_eq_some hlookup] at hinsert
    simp only [Option.map_some, Option.getD_some]
    omega

/-- An insertion replaces what the map held at the key. -/
theorem total_insert (measure : ν → Nat) (m : Finmap fun _ : κ => ν) (key : κ) (value : ν) :
    total measure (m.insert key value) + valueAt measure m key =
      total measure m + measure value := by
  have herase := total_erase_add_valueAt measure m key
  have hinsert := total_insert_of_notMem measure value
    (Finmap.notMem_erase_self (a := key) (s := m))
  rw [insert_erase] at hinsert
  rw [hinsert]
  omega

/-- No value counts for more than the total. -/
theorem valueAt_le_total (measure : ν → Nat) (m : Finmap fun _ : κ => ν) (key : κ) :
    valueAt measure m key ≤ total measure m := by
  rw [← total_erase_add_valueAt measure m key]
  exact Nat.le_add_left _ _

theorem total_eq_zero {measure : ν → Nat} {m : Finmap fun _ : κ => ν}
    (h : ∀ key value, m.lookup key = some value → measure value = 0) : total measure m = 0 := by
  apply Multiset.sum_eq_zero
  intro n hn
  obtain ⟨⟨key, value⟩, hentry, rfl⟩ := Multiset.mem_map.mp hn
  exact h key value (Finmap.lookup_eq_some_iff.mpr hentry)

end PartyMix.FiniteMap
