import Mathlib.Data.List.Infix
import Mathlib.Data.List.Nodup

/-!
# Histories ordered by extension

A chain of blocks is a list and a later state of the same chain is a list that
has the earlier one as a prefix (Mathlib's `<+:`).  Two lists `Fork` when they
differ at an index both have.  A fork is permanent: extending either side keeps
it, so forked lists are never prefixes of one chain.
-/

namespace PartyMix.ChainPrefix

variable {α : Type}

/-- The two lists differ at an index both have. -/
def Fork (u v : List α) : Prop :=
  ∃ (i : Nat) (a b : α), u[i]? = some a ∧ v[i]? = some b ∧ a ≠ b

theorem Fork.symm {u v : List α} (h : Fork u v) : Fork v u := by
  obtain ⟨i, a, b, ha, hb, hne⟩ := h
  exact ⟨i, b, a, hb, ha, hne.symm⟩

theorem getElem?_of_prefix {u v : List α} (h : u <+: v) {i : Nat} {a : α}
    (ha : u[i]? = some a) : v[i]? = some a := by
  obtain ⟨tail, rfl⟩ := h
  have hi : i < u.length := (List.getElem?_eq_some_iff.mp ha).1
  rw [List.getElem?_append_left hi]
  exact ha

theorem Fork.extend_right {u v w : List α} (h : Fork u v) (hvw : v <+: w) : Fork u w := by
  obtain ⟨i, a, b, ha, hb, hne⟩ := h
  exact ⟨i, a, b, ha, getElem?_of_prefix hvw hb, hne⟩

theorem Fork.extend_left {u v w : List α} (h : Fork u v) (huw : u <+: w) : Fork w v :=
  (h.symm.extend_right huw).symm

theorem not_fork_self (u : List α) : ¬ Fork u u := by
  rintro ⟨i, a, b, ha, hb, hne⟩
  exact hne (Option.some.inj (ha.symm.trans hb))

theorem not_fork_of_prefix {u v chain : List α} (hu : u <+: chain) (hv : v <+: chain) :
    ¬ Fork u v := by
  intro h
  exact not_fork_self chain ((h.extend_left hu).extend_right hv)

/-- In a nonempty list without repetition, the entries left after dropping the
    last `n > 0` are never the last `n` themselves. -/
theorem take_ne_drop {xs : List α} (hnodup : xs.Nodup) {n : Nat} (hn : n ≤ xs.length)
    (hpos : 0 < n) (hxs : xs ≠ []) :
    xs.take (xs.length - n) ≠ xs.drop (xs.length - n) := by
  intro heq
  have hlength := congrArg List.length heq
  have hxpos : 0 < xs.length := List.length_pos_iff.mpr hxs
  have hcut : xs.length - n < xs.length := by omega
  simp only [List.length_take, List.length_drop] at hlength
  have hfirst : (xs.take (xs.length - n))[0]? = some xs[0] := by
    rw [List.getElem?_take_of_lt (by omega), List.getElem?_eq_getElem hxpos]
  have hmiddle : (xs.drop (xs.length - n))[0]? = some xs[xs.length - n] := by
    rw [List.getElem?_drop, Nat.add_zero, List.getElem?_eq_getElem hcut]
  rw [heq, hmiddle] at hfirst
  -- equal entries of a duplicate-free list sit at equal positions
  have hindex := (List.Nodup.getElem_inj_iff hnodup).mp (Option.some.inj hfirst)
  omega

end PartyMix.ChainPrefix
