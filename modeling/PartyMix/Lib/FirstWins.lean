import Mathlib.Data.Finmap
import Mathlib.Data.List.Nodup

/-!
# First-wins recording

A scan that meets keys with repetitions and records a key only when it is not
recorded yet.  What is recorded depends on the list of occurrences alone:
`firstNew seen` keeps the first occurrence of every key outside `seen`, and
`insertAll` writes the kept entries into the map.  The lemmas say which keys are
kept, that every key is kept once, and what a lookup finds afterwards.
-/

namespace PartyMix.FirstWins

variable {κ α ν : Type} [DecidableEq κ]

/-- The entries whose key is neither in `seen` nor earlier in the list. -/
def firstNew (seen : Finset κ) : List (κ × α) → List (κ × α)
  | [] => []
  | (k, a) :: rest =>
      if k ∈ seen then firstNew seen rest else (k, a) :: firstNew (insert k seen) rest

theorem firstNew_cons_of_mem {seen : Finset κ} {k : κ} (h : k ∈ seen) (a : α)
    (rest : List (κ × α)) : firstNew seen ((k, a) :: rest) = firstNew seen rest :=
  if_pos h

theorem firstNew_cons_of_notMem {seen : Finset κ} {k : κ} (h : k ∉ seen) (a : α)
    (rest : List (κ × α)) :
    firstNew seen ((k, a) :: rest) = (k, a) :: firstNew (insert k seen) rest :=
  if_neg h

theorem mem_keys_firstNew {seen : Finset κ} {l : List (κ × α)} {k : κ} :
    k ∈ (firstNew seen l).map Prod.fst ↔ k ∈ l.map Prod.fst ∧ k ∉ seen := by
  induction l generalizing seen with
  | nil => simp [firstNew]
  | cons entry rest ih =>
    obtain ⟨key, a⟩ := entry
    by_cases hkey : key ∈ seen
    · rw [firstNew_cons_of_mem hkey, ih, List.map_cons, List.mem_cons]
      constructor
      · rintro ⟨hmem, hnew⟩
        exact ⟨Or.inr hmem, hnew⟩
      · rintro ⟨rfl | hmem, hnew⟩
        · exact absurd hkey hnew
        · exact ⟨hmem, hnew⟩
    · rw [firstNew_cons_of_notMem hkey, List.map_cons, List.mem_cons, ih, List.map_cons,
        List.mem_cons, Finset.mem_insert]
      by_cases hk : k = key
      · -- the key itself
        subst hk
        simp [hkey]
      · simp [hk]

theorem nodup_keys_firstNew (seen : Finset κ) (l : List (κ × α)) :
    ((firstNew seen l).map Prod.fst).Nodup := by
  induction l generalizing seen with
  | nil => exact List.nodup_nil
  | cons entry rest ih =>
    obtain ⟨key, a⟩ := entry
    by_cases hkey : key ∈ seen
    · rw [firstNew_cons_of_mem hkey]
      exact ih seen
    · rw [firstNew_cons_of_notMem hkey, List.map_cons, List.nodup_cons]
      refine ⟨?_, ih _⟩
      intro habs
      exact (mem_keys_firstNew.mp habs).2 (Finset.mem_insert_self _ _)

/-- The kept keys stand in the order of their first occurrences. -/
theorem pairwise_idxOf_firstNew (seen : Finset κ) (l : List (κ × α)) :
    ((firstNew seen l).map Prod.fst).Pairwise fun left right =>
      (l.map Prod.fst).idxOf left < (l.map Prod.fst).idxOf right := by
  induction l generalizing seen with
  | nil => exact List.Pairwise.nil
  | cons entry rest ih =>
    obtain ⟨key, a⟩ := entry
    -- in front of the list stands one more key, which the rest does not keep
    have hshift {seen : Finset κ} (hkey : key ∈ seen) :
        ((firstNew seen rest).map Prod.fst).Pairwise fun left right =>
          (key :: rest.map Prod.fst).idxOf left < (key :: rest.map Prod.fst).idxOf right := by
      refine (ih seen).imp_of_mem ?_
      intro left right hleft hright hlt
      have hne {k : κ} (hk : k ∈ (firstNew seen rest).map Prod.fst) : key ≠ k := by
        rintro rfl
        exact (mem_keys_firstNew.mp hk).2 hkey
      rw [List.idxOf_cons_ne _ (hne hleft), List.idxOf_cons_ne _ (hne hright)]
      exact Nat.succ_lt_succ hlt
    by_cases hkey : key ∈ seen
    · rw [firstNew_cons_of_mem hkey]
      exact hshift hkey
    · rw [firstNew_cons_of_notMem hkey, List.map_cons, List.map_cons, List.pairwise_cons]
      refine ⟨?_, hshift (Finset.mem_insert_self key seen)⟩
      intro right hright
      have hne : key ≠ right := by
        rintro rfl
        exact (mem_keys_firstNew.mp hright).2 (Finset.mem_insert_self key seen)
      rw [List.idxOf_cons_self, List.idxOf_cons_ne _ hne]
      exact Nat.succ_pos _

theorem firstNew_append (seen : Finset κ) (l₁ l₂ : List (κ × α)) :
    firstNew seen (l₁ ++ l₂) =
      firstNew seen l₁ ++ firstNew (seen ∪ (l₁.map Prod.fst).toFinset) l₂ := by
  induction l₁ generalizing seen with
  | nil => simp [firstNew]
  | cons entry rest ih =>
    obtain ⟨key, a⟩ := entry
    rw [List.cons_append, List.map_cons, List.toFinset_cons, Finset.union_insert,
      ← Finset.insert_union]
    by_cases hkey : key ∈ seen
    · rw [firstNew_cons_of_mem hkey, firstNew_cons_of_mem hkey, ih, Finset.insert_eq_of_mem hkey]
    · rw [firstNew_cons_of_notMem hkey, firstNew_cons_of_notMem hkey, ih, List.cons_append]

theorem firstNew_eq_nil_iff {seen : Finset κ} {l : List (κ × α)} :
    firstNew seen l = [] ↔ ∀ k ∈ l.map Prod.fst, k ∈ seen := by
  rw [← List.map_eq_nil_iff (f := Prod.fst), List.eq_nil_iff_forall_not_mem]
  simp only [mem_keys_firstNew, not_and, not_not]

/-- How many different new keys the list has ahead of the key `k`. -/
def newAhead (seen : Finset κ) (l : List (κ × α)) (k : κ) : Nat :=
  (((l.map Prod.fst).takeWhile fun other => decide (other ≠ k)).toFinset \ seen).card

theorem newAhead_cons_self (seen : Finset κ) (k : κ) (a : α) (rest : List (κ × α)) :
    newAhead seen ((k, a) :: rest) k = 0 := by
  simp [newAhead]

theorem newAhead_cons_of_mem {seen : Finset κ} {key k : κ} (hne : key ≠ k) (hkey : key ∈ seen)
    (a : α) (rest : List (κ × α)) :
    newAhead seen ((key, a) :: rest) k = newAhead seen rest k := by
  rw [newAhead, List.map_cons, List.takeWhile_cons_of_pos (by simpa using hne),
    List.toFinset_cons, Finset.insert_sdiff_of_mem _ hkey, newAhead]

theorem newAhead_cons_of_notMem {seen : Finset κ} {key k : κ} (hne : key ≠ k)
    (hkey : key ∉ seen) (a : α) (rest : List (κ × α)) :
    newAhead seen ((key, a) :: rest) k = newAhead (insert key seen) rest k + 1 := by
  have hcounted (ahead : Finset κ) :
      insert key ahead \ seen = insert key (ahead \ insert key seen) := by
    ext other
    simp only [Finset.mem_sdiff, Finset.mem_insert]
    by_cases hother : other = key
    · subst hother
      simp [hkey]
    · simp [hother]
  rw [newAhead, List.map_cons, List.takeWhile_cons_of_pos (by simpa using hne),
    List.toFinset_cons, hcounted, Finset.card_insert_of_notMem (by simp), newAhead]

/-- A key is kept with its first entry, at the number of the new keys ahead of it. -/
theorem getElem?_firstNew_eq_some_iff {seen : Finset κ} {l : List (κ × α)} {k : κ} {a : α}
    {i : Nat} :
    (firstNew seen l)[i]? = some (k, a) ↔
      k ∉ seen ∧ l.lookup k = some a ∧ i = newAhead seen l k := by
  induction l generalizing seen i with
  | nil => simp [firstNew]
  | cons entry rest ih =>
    obtain ⟨key, b⟩ := entry
    by_cases hkey : key ∈ seen
    · -- passed over, and not counted
      rw [firstNew_cons_of_mem hkey, ih]
      by_cases hk : key = k
      · subst hk
        simp [hkey]
      · rw [newAhead_cons_of_mem hk hkey, List.lookup_cons, beq_false_of_ne (Ne.symm hk)]
    · rw [firstNew_cons_of_notMem hkey]
      by_cases hk : key = k
      · subst hk
        rw [newAhead_cons_self, List.lookup_cons_self]
        cases i with
        | zero => simp [hkey]
        | succ i =>
          -- the rest of the list keeps no key of `insert key seen`
          rw [List.getElem?_cons_succ, ih]
          simp
      · -- one more new key ahead
        rw [newAhead_cons_of_notMem hk hkey, List.lookup_cons, beq_false_of_ne (Ne.symm hk)]
        cases i with
        | zero => simp [hk]
        | succ i =>
          rw [List.getElem?_cons_succ, ih]
          simp [Ne.symm hk]

/-! ### Writing the kept entries -/

def insertAll (m : Finmap fun _ : κ => ν) (entries : List (κ × ν)) : Finmap fun _ : κ => ν :=
  entries.foldl (fun m entry => m.insert entry.1 entry.2) m

@[simp] theorem insertAll_nil (m : Finmap fun _ : κ => ν) : insertAll m [] = m := rfl

@[simp] theorem insertAll_cons (m : Finmap fun _ : κ => ν) (entry : κ × ν)
    (rest : List (κ × ν)) :
    insertAll m (entry :: rest) = insertAll (m.insert entry.1 entry.2) rest := rfl

theorem keys_insert (m : Finmap fun _ : κ => ν) (k : κ) (v : ν) :
    (m.insert k v).keys = insert k m.keys := by
  ext key
  rw [Finmap.mem_keys, Finmap.mem_insert, Finset.mem_insert, Finmap.mem_keys]

theorem keys_insertAll (m : Finmap fun _ : κ => ν) (entries : List (κ × ν)) :
    (insertAll m entries).keys = m.keys ∪ (entries.map Prod.fst).toFinset := by
  induction entries generalizing m with
  | nil => simp
  | cons entry rest ih =>
    rw [insertAll_cons, ih, keys_insert, List.map_cons, List.toFinset_cons, Finset.insert_union,
      Finset.union_insert]

theorem lookup_insertAll_of_notMem {m : Finmap fun _ : κ => ν} {entries : List (κ × ν)} {k : κ}
    (h : k ∉ entries.map Prod.fst) : (insertAll m entries).lookup k = m.lookup k := by
  induction entries generalizing m with
  | nil => rfl
  | cons entry rest ih =>
    rw [List.map_cons, List.mem_cons, not_or] at h
    rw [insertAll_cons, ih h.2, Finmap.lookup_insert_of_ne _ h.1]

theorem lookup_insertAll_of_mem {m : Finmap fun _ : κ => ν} {entries : List (κ × ν)}
    (hnodup : (entries.map Prod.fst).Nodup) {k : κ} {v : ν} (h : (k, v) ∈ entries) :
    (insertAll m entries).lookup k = some v := by
  induction entries generalizing m with
  | nil => cases h
  | cons entry rest ih =>
    rw [List.map_cons, List.nodup_cons] at hnodup
    rw [insertAll_cons]
    rcases List.mem_cons.mp h with rfl | hrest
    · rw [lookup_insertAll_of_notMem hnodup.1, Finmap.lookup_insert]
    · exact ih hnodup.2 hrest

end PartyMix.FirstWins
