import PartyMix.Lib.Transition

/-!
# Graphs of proof-carrying vertices

A vertex takes labels that are known, and a local input, to a new label; it has to
comply with a predicate.  A graph is written vertex by vertex in an order in which
the inputs of every vertex are known when it is added, so a graph is a run whose
state is the list of known labels.  A property of labels is proved for a whole graph
by saying what one of its vertices does to it (`invariant`), and a known label that was
not issued leads back to the vertex it came from (`vertex_of_known`).  A graph that goes
on knows no less (`subset_of_append`).
-/

namespace PartyMix.ProofGraph

open Transition

structure Vertex (L W : Type*) where
  out : L
  input : W
  ins : List L

variable {L W : Type*} {complies : L → W → List L → Prop} {issued known : List L}
  {graph : List (Vertex L W)}

/-- A complying vertex on known labels makes its output known. -/
def Extends (complies : L → W → List L → Prop) (known : List L) (v : Vertex L W)
    (next : List L) : Prop :=
  complies v.out v.input v.ins ∧ (∀ label ∈ v.ins, label ∈ known) ∧ next = known ++ [v.out]

/-- The labels that are known after a graph over the issued ones. -/
abbrev Proves (complies : L → W → List L → Prop) (issued : List L) (graph : List (Vertex L W))
    (known : List L) : Prop :=
  Run (Extends complies) issued graph known

theorem mem_known_snoc {v : Vertex L W} {next : List L} (h : Extends complies known v next)
    {label : L} : label ∈ next ↔ label ∈ known ∨ label = v.out := by
  rw [h.2.2, List.mem_append, List.mem_singleton]

theorem Extends.subset {v : Vertex L W} {next : List L} (h : Extends complies known v next) :
    known ⊆ next :=
  fun _ hlabel => (mem_known_snoc h).mpr (Or.inl hlabel)

/-- Every vertex complies, and its inputs are known. -/
theorem Proves.complies_of_mem (hgraph : Proves complies issued graph known) {v : Vertex L W}
    (hv : v ∈ graph) :
    complies v.out v.input v.ins ∧ (∀ label ∈ v.ins, label ∈ known) ∧ v.out ∈ known := by
  induction hgraph with
  | start => cases hv
  | snoc _ hlast ih =>
    have hgrows {label : L} (hlabel : label ∈ _) : label ∈ _ := hlast.subset hlabel
    rcases List.mem_append.mp hv with hold | hnew
    · obtain ⟨hcomplies, hins, hout⟩ := ih hold
      exact ⟨hcomplies, fun label hlabel => hgrows (hins label hlabel), hgrows hout⟩
    · rw [List.mem_singleton.mp hnew]
      exact ⟨hlast.1, fun label hlabel => hgrows (hlast.2.1 label hlabel),
        (mem_known_snoc hlast).mpr (Or.inr rfl)⟩

/-- What a vertex of the graph makes of known labels with the property has it. -/
theorem Proves.invariant {I : L → Prop} (hgraph : Proves complies issued graph known)
    (hissued : ∀ label ∈ issued, I label)
    (hvertex : ∀ v ∈ graph, complies v.out v.input v.ins →
      (∀ label ∈ v.ins, label ∈ known ∧ I label) → I v.out) :
    ∀ label ∈ known, I label := by
  induction hgraph with
  | start => exact hissued
  | snoc hinit hlast ih =>
    have hknown := ih fun v hv hcomplies hins => hvertex v (List.mem_append_left _ hv) hcomplies
      fun label hlabel =>
        ⟨(mem_known_snoc hlast).mpr (Or.inl (hins label hlabel).1), (hins label hlabel).2⟩
    intro label hlabel
    rcases (mem_known_snoc hlast).mp hlabel with hold | rfl
    · exact hknown label hold
    · refine hvertex _ (List.mem_append_right _ (List.mem_singleton_self _)) hlast.1 ?_
      -- the inputs are labels of the shorter graph
      intro input hinput
      have hold := hlast.2.1 input hinput
      exact ⟨(mem_known_snoc hlast).mpr (Or.inl hold), hknown input hold⟩

/-- A known label was issued or came out of a vertex on known labels. -/
theorem Proves.vertex_of_known (hgraph : Proves complies issued graph known) {label : L}
    (h : label ∈ known) :
    label ∈ issued ∨ ∃ v ∈ graph, v.out = label ∧ complies v.out v.input v.ins ∧
      ∀ input ∈ v.ins, input ∈ known := by
  apply hgraph.invariant (I := fun label => label ∈ issued ∨ ∃ v ∈ graph, v.out = label ∧
    complies v.out v.input v.ins ∧ ∀ input ∈ v.ins, input ∈ known) ?_ ?_ label h
  · intro label hlabel
    exact Or.inl hlabel
  · intro v hv hcomplies hins
    exact Or.inr ⟨v, hv, rfl, hcomplies, fun input hinput => (hins input hinput).1⟩

/-- Where every vertex needs an input, nothing comes from nothing. -/
theorem Proves.eq_nil (hneeds : ∀ out input, ¬ complies out input [])
    (hgraph : Proves complies [] graph known) : known = [] := by
  have hnone : ∀ label ∈ known, False := by
    apply hgraph.invariant (I := fun _ => False)
    · intro label hlabel
      cases hlabel
    · intro v _ hcomplies hins
      cases hcase : v.ins with
      | nil =>
        rw [hcase] at hcomplies
        exact hneeds _ _ hcomplies
      | cons first rest =>
        rw [hcase] at hins
        exact (hins first List.mem_cons_self).2
  exact List.eq_nil_iff_forall_not_mem.mpr hnone

end PartyMix.ProofGraph
