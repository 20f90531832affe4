import Mathlib.Data.List.Induction

/-!
# Runs of a labelled transition relation

`Run step s ls t` is a finite run from `s` to `t` that performs the steps `ls` in
order.  Runs grow at the end, so a property of every run is proved by saying what
the last step does to it (`Run.invariant`), and a property that holds only while
every step meets a side condition is an invariant of the runs that meet it
(`Meets.invariant`).
-/

namespace PartyMix.Transition

variable {σ ℓ : Type*} {step : σ → ℓ → σ → Prop}

inductive Run (step : σ → ℓ → σ → Prop) (s : σ) : List ℓ → σ → Prop
  | start : Run step s [] s
  | snoc {ls : List ℓ} {t u : σ} {l : ℓ} :
      Run step s ls t → step t l u → Run step s (ls ++ [l]) u

theorem Run.invariant {I : σ → Prop} (hstep : ∀ t l u, I t → step t l u → I u)
    {s t : σ} {ls : List ℓ} (hrun : Run step s ls t) (hs : I s) : I t := by
  induction hrun with
  | start => exact hs
  | snoc _ hlast ih => exact hstep _ _ _ ih hlast

theorem Run.eq_start {s t : σ} (hrun : Run step s [] t) : t = s := by
  generalize hlabels : ([] : List ℓ) = labels at hrun
  cases hrun with
  | start => rfl
  | snoc => simp at hlabels

theorem Run.last {s t : σ} {ls : List ℓ} {l : ℓ} (hrun : Run step s (ls ++ [l]) t) :
    ∃ m, Run step s ls m ∧ step m l t := by
  generalize hlabels : ls ++ [l] = labels at hrun
  cases hrun with
  | start => simp at hlabels
  | snoc hinit hlast =>
    obtain ⟨rfl, hl⟩ := List.append_inj' hlabels rfl
    obtain rfl := List.singleton_inj.mp hl
    exact ⟨_, hinit, hlast⟩

theorem Run.split {s t : σ} {l₁ l₂ : List ℓ} (hrun : Run step s (l₁ ++ l₂) t) :
    ∃ m, Run step s l₁ m ∧ Run step m l₂ t := by
  induction l₂ using List.reverseRecOn generalizing t with
  | nil =>
    rw [List.append_nil] at hrun
    exact ⟨t, hrun, Run.start⟩
  | append_singleton l₂ l ih =>
    rw [← List.append_assoc] at hrun
    obtain ⟨u, hinit, hlast⟩ := hrun.last
    obtain ⟨m, hfirst, hsecond⟩ := ih hinit
    exact ⟨m, hfirst, Run.snoc hsecond hlast⟩

/-- Runs of a deterministic relation are determined by their labels. -/
theorem Run.unique (hstep : ∀ s l t u, step s l t → step s l u → t = u) {s t u : σ}
    {ls : List ℓ} (ht : Run step s ls t) (hu : Run step s ls u) : t = u := by
  induction ht generalizing u with
  | start => exact hu.eq_start.symm
  | snoc _ hlast ih =>
    obtain ⟨m, hinit, hlast'⟩ := hu.last
    obtain rfl := ih hinit
    exact hstep _ _ _ _ hlast hlast'

/-- Every step of the run meets the side condition, which may look at the steps
    done so far and at the state the step starts from. -/
inductive Meets (step : σ → ℓ → σ → Prop) (good : List ℓ → σ → ℓ → Prop) (s : σ) :
    List ℓ → σ → Prop
  | start : Meets step good s [] s
  | snoc {ls : List ℓ} {t u : σ} {l : ℓ} :
      Meets step good s ls t → good ls t l → step t l u → Meets step good s (ls ++ [l]) u

theorem Meets.run {good : List ℓ → σ → ℓ → Prop} {s t : σ} {ls : List ℓ}
    (hmeets : Meets step good s ls t) : Run step s ls t := by
  induction hmeets with
  | start => exact Run.start
  | snoc _ _ hlast ih => exact Run.snoc ih hlast

theorem Meets.last {good : List ℓ → σ → ℓ → Prop} {s t : σ} {ls : List ℓ} {l : ℓ}
    (hmeets : Meets step good s (ls ++ [l]) t) :
    ∃ m, Meets step good s ls m ∧ good ls m l ∧ step m l t := by
  generalize hlabels : ls ++ [l] = labels at hmeets
  cases hmeets with
  | start => simp at hlabels
  | snoc hinit hgood hlast =>
    obtain ⟨rfl, hl⟩ := List.append_inj' hlabels rfl
    obtain rfl := List.singleton_inj.mp hl
    exact ⟨_, hinit, hgood, hlast⟩

/-- Runs of a relation that is another one under a side condition. -/
theorem run_iff_meets {other : σ → ℓ → σ → Prop} {good : σ → ℓ → Prop}
    (hstep : ∀ t l u, step t l u ↔ other t l u ∧ good t l) {s t : σ} {ls : List ℓ} :
    Run step s ls t ↔ Meets other (fun _ t l => good t l) s ls t := by
  constructor
  · intro hrun
    induction hrun with
    | start => exact Meets.start
    | snoc _ hlast ih =>
      obtain ⟨hother, hgood⟩ := (hstep _ _ _).mp hlast
      exact Meets.snoc ih hgood hother
  · intro hmeets
    induction hmeets with
    | start => exact Run.start
    | snoc _ hgood hlast ih => exact Run.snoc ih ((hstep _ _ _).mpr ⟨hlast, hgood⟩)

theorem meets_label_iff {good : ℓ → Prop} {s t : σ} {ls : List ℓ} :
    Meets step (fun _ _ l => good l) s ls t ↔ Run step s ls t ∧ ∀ l ∈ ls, good l := by
  constructor
  · intro hmeets
    refine ⟨hmeets.run, ?_⟩
    induction hmeets with
    | start => exact nofun
    | snoc _ hgood _ ih =>
      intro l hl
      rcases List.mem_append.mp hl with hold | hlast
      · exact ih l hold
      · rw [List.mem_singleton.mp hlast]
        exact hgood
  · -- a condition on labels alone does not look at the states
    rintro ⟨hrun, hgood⟩
    induction hrun with
    | start => exact Meets.start
    | snoc _ hlast ih =>
      exact Meets.snoc (ih fun l hl => hgood l (List.mem_append_left _ hl))
        (hgood _ (List.mem_append_right _ (List.mem_singleton_self _))) hlast

/-- A property that steps preserve under the side condition holds at the end of
    every run whose steps all meet it.  The property may speak about the labels. -/
theorem Meets.invariant {good : List ℓ → σ → ℓ → Prop} {I : List ℓ → σ → Prop} {s : σ}
    (hstep : ∀ ls t l u, I ls t → good ls t l → step t l u → I (ls ++ [l]) u)
    {t : σ} {ls : List ℓ} (hmeets : Meets step good s ls t) (hs : I [] s) : I ls t := by
  induction hmeets with
  | start => exact hs
  | snoc _ hgood hlast ih => exact hstep _ _ _ _ ih hgood hlast

end PartyMix.Transition
