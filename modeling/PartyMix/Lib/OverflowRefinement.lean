import PartyMix.Lib.MachineWord

/-!
# Running alike up to a failure

`RunsAs e x y`: the computation `x` has the outcome of `y`, or it fails with `e`.  A
program compiled with overflow checks runs as the one without them, up to the overflow
panic; the relation passes through sequencing and loops, so it is proved for operators
and holds of the programs made of them.
-/

namespace PartyMix.MachineWord

variable {ε α β γ : Type} {e : ε}

def RunsAs (e : ε) (x y : Except ε α) : Prop := x = .error e ∨ x = y

namespace RunsAs

theorem refl (x : Except ε α) : RunsAs e x x := Or.inr rfl

theorem fails {y : Except ε α} : RunsAs e (.error e) y := Or.inl rfl

theorem ok {x y : Except ε α} (h : RunsAs e x y) {a : α} (hx : x = .ok a) : y = .ok a := by
  rcases h with hfail | rfl
  · rw [hfail] at hx
    cases hx
  · exact hx

/-- The outcome of the right side is the one of the left, unless that one fails. -/
theorem ok_iff {x y : Except ε α} (h : RunsAs e x y) {a : α} :
    x = .ok a ↔ y = .ok a ∧ x ≠ .error e := by
  constructor
  · intro hx
    refine ⟨h.ok hx, ?_⟩
    rw [hx]
    exact nofun
  · rintro ⟨hy, hx⟩
    rcases h with hfail | rfl
    · exact absurd hfail hx
    · exact hy

theorem bind {x y : Except ε α} {f g : α → Except ε β} (hx : RunsAs e x y)
    (hf : ∀ a, RunsAs e (f a) (g a)) : RunsAs e (x >>= f) (y >>= g) := by
  rcases hx with rfl | rfl
  · exact fails
  · cases x with
    | error failure => exact refl _
    | ok a => exact hf a

theorem foldlM {f g : β → α → Except ε β} (hf : ∀ b a, RunsAs e (f b a) (g b a)) (as : List α)
    (init : β) : RunsAs e (as.foldlM f init) (as.foldlM g init) := by
  induction as generalizing init with
  | nil => exact refl _
  | cons a as ih =>
    rw [List.foldlM_cons, List.foldlM_cons]
    exact (hf init a).bind ih

end RunsAs

/-! ### Plain operators -/

theorem runsAs_plainOperator (limit exact : Nat) (wrapped : α) :
    RunsAs .overflow (plainOperator .debug limit exact wrapped)
      (plainOperator .release limit exact wrapped) := by
  have hrelease : plainOperator .release limit exact wrapped = .ok wrapped := if_neg (by simp)
  rw [hrelease, plainOperator]
  split
  · exact RunsAs.fails
  · exact RunsAs.refl _

theorem runsAs_addU64 (a b : UInt64) :
    RunsAs .overflow (addU64 .debug a b) (addU64 .release a b) :=
  runsAs_plainOperator _ _ _

theorem runsAs_mulU64 (a b : UInt64) :
    RunsAs .overflow (mulU64 .debug a b) (mulU64 .release a b) :=
  runsAs_plainOperator _ _ _

theorem runsAs_addU32 (a b : UInt32) :
    RunsAs .overflow (addU32 .debug a b) (addU32 .release a b) :=
  runsAs_plainOperator _ _ _

theorem runsAs_sumU64 (values : List UInt64) :
    RunsAs .overflow (sumU64 .debug values) (sumU64 .release values) :=
  RunsAs.foldlM runsAs_addU64 values 0

end PartyMix.MachineWord
