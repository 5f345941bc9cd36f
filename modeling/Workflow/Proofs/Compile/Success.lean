import Workflow.Proofs.Compile.States

/-!
# When a compilation ends with a document

A compilation may fail at a node that is no state, at an output that leads nowhere it may lead, and
for want of depth. When all states of a graph can be expanded, none of this happens
(`statesOf_ok`).
-/

namespace Workflow.Compile

variable {T : Type} [NodeSpec T] {c : Catalog T} {g : Graph}

theorem expand_outcome_iff {id : NodeId} {s : State} :
    (expand c g id).outcome = .ok s ↔ IsStateOf c g id s := by
  constructor
  · intro h
    exact (expand_eq_ok_iff.1 (Traced.eq_of_outcome h)).1
  · intro h
    have hstate := h
    obtain ⟨n, t, outputs, -, -, hn, -, -, ht, ho, -⟩ := hstate
    rw [expand_eq_ok_iff.2 ⟨h, n, t, outputs, hn, ht, ho, rfl⟩]

/-- A node stands for one state at most. -/
theorem IsStateOf.unique {id : NodeId} {s s' : State} (h : IsStateOf c g id s)
    (h' : IsStateOf c g id s') : s = s' :=
  Except.ok.inj ((expand_outcome_iff.2 h).symm.trans (expand_outcome_iff.2 h'))

/-- The walk over all states ends when there is a set of nodes that can be expanded, lead to one
another only, and hold the entry node and the states that nothing leads to. -/
theorem statesOf_ok {vs : List NodeId} {entry : NodeId}
    (hclosed : ∀ v ∈ vs, ∀ x, LeadsTo c g v x → x ∈ vs)
    (hstate : ∀ v ∈ vs, ∃ s, IsStateOf c g v s) (hentry : entry ∈ vs)
    (hroots : ∀ e ∈ g.nodes, e.2.isPrimitive = true → g.incoming e.1 = [] → e.1 ∈ vs)
    (hlength : vs.length ≤ g.nodeCount) : ∃ w, statesOf c g entry = .ok w := by
  have hok : ∀ v ∈ vs, ∃ s, (expand c g v).outcome = .ok s := fun v hv =>
    (hstate v hv).imp fun s hs => expand_outcome_iff.2 hs
  have hleads : ∀ v ∈ vs, ∀ x, Walk.Leads (expand c g) v x → x ∈ vs := by
    intro v hv x hx
    obtain ⟨s, hs⟩ := hok v hv
    exact hclosed v hv x ((expand_leads_iff hs).1 hx)
  have hvisit : ∀ (w : Walk NodeId State), ∀ v ∈ vs, ∃ w', visit c g w v = .ok w' := by
    intro w v hv
    refine Walk.visit_ok hleads hok _ w v hv ?_
    have hle : (Walk.unvisited vs w).length ≤ vs.length := List.length_filter_le _ _
    omega
  have hroot : ∀ w, ∀ e ∈ g.nodes, True → ∃ w', visitRoot c g w e = .ok w' ∧ True := by
    intro w e he _
    unfold visitRoot
    split
    next hroot =>
      simp only [Bool.and_eq_true, List.isEmpty_iff] at hroot
      exact (hvisit w e.1 (hroots e he hroot.1.1 hroot.2)).imp fun _ h => ⟨h, trivial⟩
    next => exact ⟨w, rfl, trivial⟩
  obtain ⟨w₁, hw₁⟩ := hvisit .start entry hentry
  obtain ⟨w₂, hw₂, -⟩ :=
    Except.foldlM_ok (P := fun _ => True) hroot
      (b := { w₁ with finished := w₁.finished.reverse }) trivial
  exact ⟨w₂, Except.bind_eq_ok_iff.2 ⟨w₁, hw₁, hw₂⟩⟩

end Workflow.Compile
