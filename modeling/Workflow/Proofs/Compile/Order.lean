import Workflow.Proofs.Compile.States
import Workflow.Proofs.Graph.Holds

/-!
# The order of the states

A compilation visits the entry node and then, one after the other, the states that nothing leads to
(`statesOf_eq`). These keep the order that they have in the graph (`Emits.filter_roots`), and graphs
whose nodes match node by node are compiled to states that match (`statesOf_matches`).
-/

namespace Workflow.Compile

variable {T : Type} [NodeSpec T] {c : Catalog T} {g : Graph} {edges : List Edge}

/-! ### Roots -/

/-- What leads to a node has an edge to it. -/
theorem LeadsTo.incoming_ne_nil (hg : g.Holds edges) {x y : NodeId} (h : LeadsTo c g x y) :
    g.incoming y ≠ [] := by
  have hedge : ∃ e ∈ edges, e.target = y := by
    cases h with
    | output _ _ he _ =>
      rw [hg.outgoing_eq] at he
      exact ⟨_, List.mem_of_mem_filter he, rfl⟩
    | handler _ he =>
      rw [hg.outgoing_eq] at he
      exact ⟨_, List.mem_of_mem_filter he, rfl⟩
  obtain ⟨e, he, rfl⟩ := hedge
  rw [hg.incoming_eq]
  exact List.ne_nil_of_mem (List.mem_filter.2 ⟨he, by simp⟩)

/-- The edge of the start node leads to the entry node. -/
theorem Emits.incoming_entry (hg : g.Holds edges) {d : Document} {entry : NodeId}
    {ids : List NodeId} (h : Emits c g d entry ids) : g.incoming entry ≠ [] := by
  obtain ⟨start, e, -, -, he, rfl, -, -⟩ := h.start
  rw [hg.edgeOn?_eq] at he
  rw [hg.incoming_eq]
  exact List.ne_nil_of_mem (List.mem_filter.2 ⟨List.mem_of_find?_eq_some he, by simp⟩)

/-- The states that nothing leads to keep the order of the graph. -/
theorem Emits.filter_roots (hg : g.Holds edges) (hnd : (g.nodes.map Prod.fst).Nodup) {d : Document}
    {entry : NodeId} {ids : List NodeId} (h : Emits c g d entry ids) :
    ids.filter (· ∈ roots g) = roots g := by
  refine h.order (fun hroot => ?_) (fun x y hxy hroot => ?_) hnd
  · obtain ⟨-, -, -, hi⟩ := mem_roots.1 hroot
    exact h.incoming_entry hg hi
  · obtain ⟨-, -, -, hi⟩ := mem_roots.1 hroot
    exact hxy.incoming_ne_nil hg hi

/-- A state that was walked over is one that nothing leads to, unless it is the entry state or
follows another state that was walked over. -/
theorem Emits.mem_roots_iff (hg : g.Holds edges) {d : Document} {entry : NodeId} {ids : List NodeId}
    (h : Emits c g d entry ids) {x : NodeId} (hx : x ∈ ids) :
    x ∈ roots g ↔ x ≠ entry ∧ ∀ y ∈ ids, ¬LeadsTo c g y x := by
  constructor
  · intro hroot
    obtain ⟨-, -, -, hi⟩ := mem_roots.1 hroot
    refine ⟨?_, fun y _ hyx => hyx.incoming_ne_nil hg hi⟩
    rintro rfl
    exact h.incoming_entry hg hi
  · rintro ⟨hne, hnone⟩
    obtain ⟨⟨n, hn, hp⟩, root, hstart, hpath⟩ := (h.mem_iff x).1 hx
    -- The path to the state has no step, because each of its nodes was walked over.
    have hpast : ∀ y, Relation.ReflTransGen (LeadsTo c g) root y → y ∈ ids := by
      intro y hy
      induction hy with
      | refl =>
        rcases hstart with rfl | hroot
        · exact h.entry_mem
        · exact (h.mem_iff root).2 ⟨hroot.1, root, .inr hroot, .refl⟩
      | tail _ hyz ih => exact h.closed _ ih _ hyz
    rcases hpath.cases_tail with rfl | ⟨y, hpath, hyx⟩
    · rcases hstart with rfl | hroot
      · exact absurd rfl hne
      · exact mem_roots.2 ⟨n, hg.consistent.mem_nodes_iff.2 hn, hp, hroot.2⟩
    · exact absurd hyx (hnone y (hpast y hpath))

/-! ### Two compilations -/

theorem foldlM_visitRoot (es : List (NodeId × Node)) (w : Walk NodeId State) :
    es.foldlM (visitRoot c g) w = ((es.filter fun e => e.2.isPrimitive &&
      (g.incoming e.1).isEmpty).map Prod.fst).foldlM (visit c g) w := by
  induction es generalizing w with
  | nil => rfl
  | cons e rest ih =>
    cases hroot : e.2.isPrimitive && (g.incoming e.1).isEmpty with
    | false =>
      have hstep : visitRoot c g w e = .ok w := by
        rw [visitRoot, Bool.and_right_comm, hroot, Bool.false_and]
        rfl
      rw [List.foldlM_cons, hstep, List.filter_cons_of_neg (by simp [hroot])]
      exact ih w
    | true =>
      have hstep : visitRoot c g w e = visit c g w e.1 := by
        rw [visitRoot, Bool.and_right_comm, hroot, Bool.true_and]
        split
        next => rfl
        next hvisited =>
          rw [visit, Walk.visit_of_mem _ _ _ (by simpa using hvisited)]
      rw [List.foldlM_cons, hstep, List.filter_cons_of_pos (by exact hroot), List.map_cons,
        List.foldlM_cons]
      exact bind_congr ih

/-- The walk over all states goes from the entry node, then from the states that nothing leads to.
-/
theorem statesOf_eq (c : Catalog T) (g : Graph) (entry : NodeId) : statesOf c g entry =
    visit c g .start entry >>= fun w =>
      (roots g).foldlM (visit c g) { w with finished := w.finished.reverse } :=
  bind_congr fun _ => foldlM_visitRoot _ _

/-- When the nodes of two graphs match, from the entry node and from the states that nothing leads
to, so do the states of their documents. -/
theorem statesOf_matches {c' : Catalog T} {g' : Graph} {R : NodeId → NodeId → Prop}
    {S : State → State → Prop} (hR : Relator.BiUnique R)
    (htrace : ∀ x x', R x x' → List.Forall₂ R (expand c g x).trace (expand c' g' x').trace)
    (hstate : ∀ x x' s s', R x x' → (expand c g x).outcome = .ok s →
      (expand c' g' x').outcome = .ok s' → S s s')
    {entry entry' : NodeId} (hentry : R entry entry') (hroots : List.Forall₂ R (roots g) (roots g'))
    {w w' : Walk NodeId State} (h : statesOf c g entry = .ok w)
    (h' : statesOf c' g' entry' = .ok w') : List.Forall₂ S w.finished w'.finished := by
  rw [statesOf_eq] at h h'
  obtain ⟨w₁, hw₁, h⟩ := Except.bind_eq_ok_iff.1 h
  obtain ⟨w₁', hw₁', h'⟩ := Except.bind_eq_ok_iff.1 h'
  have hstart : Walk.Matches R S (.start : Walk NodeId State) (.start : Walk NodeId State) :=
    ⟨.nil, .nil⟩
  have hvisit : ∀ w w' w₁ w₁' x x', R x x' → Walk.Matches R S w w' → visit c g w x = .ok w₁ →
      visit c' g' w' x' = .ok w₁' → Walk.Matches R S w₁ w₁' :=
    Walk.visit_matches hR htrace hstate _ _
  have hfirst := hvisit _ _ _ _ _ _ hentry hstart hw₁ hw₁'
  exact (Walk.foldlM_matches hvisit hroots hfirst.reverse h h').finished

end Workflow.Compile
