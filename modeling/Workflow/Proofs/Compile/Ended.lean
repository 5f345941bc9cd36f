import Workflow.Proofs.Edit.Reinserted
import Workflow.Proofs.Edit.Reproduced
import Workflow.Proofs.Walk.Runs

/-!
# The walk of a compilation ends

A state leads to other states directly and through error-catch nodes, which may be shared, lead back,
or lead to one another. Still the walk ends in every graph (`visit_ends`): only nodes that are found
lead anywhere, there are no more of them than nodes, and each is expanded once. A node that is not
found cuts the walk short, with the complaint about it.
-/

namespace Workflow.Compile

variable {T : Type} [NodeSpec T] {c : Catalog T} {g : Graph}

theorem expand_of_node?_eq_none {id : NodeId} (h : g.node? id = none) :
    expand c g id = ⟨[], .error (.nodeNotFound id)⟩ := by
  have hnode : g.node id = .error (.nodeNotFound id) := by rw [Graph.node, h]
  rw [expand, hnode]
  rfl

/-- A node that is not listed is not found. -/
theorem trace_expand_of_not_mem (hg : g.Labelled) {id : NodeId} (h : id ∉ g.ids) :
    (expand c g id).trace = [] := by
  have hnone : g.node? id = none := by
    by_contra hne
    obtain ⟨n, hn⟩ := Option.ne_none_iff_exists'.1 hne
    exact h (List.mem_map_of_mem (f := Prod.fst) (hg.mem_nodes hn))
  rw [expand_of_node?_eq_none hnone]

/-- A visit ends from every walk and in every graph whose identifiers stand for cells of their own.
It is a run without a bound, which a visit with fuel for all nodes follows whatever more fuel it has
and whatever the error for running out is. The vertices `new` that it expands are different, were not
visited, and are visited from then on. They are in the graph, but for one that is not and ends the
walk. The states that are finished are those of different vertices among them. -/
theorem visit_ends (hg : g.Labelled) (c : Catalog T) (w : Walk NodeId State) (id : NodeId) :
    ∃ new w' outcome, Walk.Runs (expand c g) w [id] new w' outcome ∧
      visit c g w id = (fun _ => w') <$> outcome ∧
      (∀ exhausted fuel, g.nodeCount < fuel →
        Walk.visit (expand c g) exhausted fuel w id = (fun _ => w') <$> outcome) ∧
      new.Nodup ∧ (∀ x ∈ new, x ∉ w.visited) ∧ w'.visited = new.reverse ++ w.visited ∧
      (∀ x ∈ new, g.contains x = true ∨ outcome = .error (.nodeNotFound x)) ∧
      ∃ done states, done.Subperm new ∧ w'.finished = w.finished ++ states ∧
        List.Forall₂ (fun x s => (expand c g x).outcome = .ok s) done states := by
  obtain ⟨new, w', outcome, hruns, hvisit⟩ :=
    Walk.visit_runs (fun _ => trace_expand_of_not_mem (c := c) hg) w id
  have hlength : g.ids.length = g.nodeCount := by rw [Graph.ids, List.length_map, hg.length_nodes]
  rw [hlength] at hvisit
  refine ⟨new, w', outcome, hruns, hvisit _ _ (Nat.lt_succ_self _), hvisit, hruns.fresh.1,
    hruns.fresh.2, hruns.visited, fun x hx => ?_, hruns.outcomes⟩
  cases hn : g.node? x with
  | none => exact .inr (hruns.eq_error_of_mem hx (expand_of_node?_eq_none hn))
  | some n => exact .inl (hg.contains_iff.2 ⟨n, hn⟩)

/-- Two states that lead to each other and share an error-catch node are finished once each. -/
theorem visit_sharedGraph_ends :
    Edit.sharedGraph.Labelled ∧
      ∃ new w' outcome,
        Walk.Runs (expand .standard Edit.sharedGraph) .start [.ofNat 1] new w' outcome ∧
        visit .standard Edit.sharedGraph .start (.ofNat 1) = (fun _ => w') <$> outcome ∧
        new.Nodup ∧ w'.visited = new.reverse := by
  have hallows : Edit.Allows .standard (fun _ _ => True) (.empty .empty) Edit.sharing := by
    decide +kernel
  have hg := (Edit.Session.linked (Edit.Session.run hallows)).toLabelled
  obtain ⟨new, w', outcome, hruns, hvisit, -, hnodup, -, hvisited, -⟩ :=
    visit_ends hg .standard .start (.ofNat 1)
  exact ⟨hg, new, w', outcome, hruns, hvisit, hnodup, hvisited.trans (List.append_nil _)⟩

end Workflow.Compile
