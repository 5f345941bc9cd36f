import Workflow.Proofs.Compile.Order
import Workflow.Proofs.Compile.Success

/-!
# Graphs that list their nodes in another order

A compilation reads the order of the nodes twice: it takes the first start node, and it goes through
the states that nothing leads to one after the other. Graphs that are `Reordered` have the same first
start node and the same edges behind every output. They are compiled to documents that agree up to the
order of the states which the entry state does not lead to, or both are not compiled
(`Reordered.compile_ok`, `Reordered.compile_error`).
-/

namespace Workflow

/-- The second graph has the nodes of the first one in some order, and the edges that leave an output
in the same order. -/
structure Graph.Reordered (g g' : Graph) : Prop where
  nodes_perm : g'.nodes.Perm g.nodes
  nodeCount_eq : g'.nodeCount = g.nodeCount
  node?_eq : ∀ id, g'.node? id = g.node? id
  outputsOf_eq : ∀ id, g'.outputsOf id = g.outputsOf id
  incoming_iff : ∀ id, g'.incoming id = [] ↔ g.incoming id = []
  edgeOn?_eq : ∀ id p, g'.edgeOn? id p = g.edgeOn? id p
  startNode?_eq : g'.startNode? = g.startNode?
  metadata_eq : g'.metadata = g.metadata

namespace Compile

variable {T : Type} [NodeSpec T]

/-- Two documents for a graph agree but for the order of the states that the entry state does not
lead to. Those that it leads to come first in both of them. -/
structure AgreeOnEntry (c : Catalog T) (g : Graph) (d d' : Document) : Prop where
  extra : d'.extra = d.extra
  functions : d'.functions = d.functions
  start : d'.start = d.start
  states : ∃ start e ids entered swept swept', g.startNode? = some start ∧
    g.edgeOn? start 1 = some e ∧ ids.Nodup ∧
    (∀ id, id ∈ ids ↔ Relation.ReflTransGen (LeadsTo c g) e.target id) ∧
    List.Forall₂ (IsStateOf c g) ids entered ∧
    d.states = entered ++ swept ∧ d'.states = entered ++ swept' ∧ swept'.Perm swept

/-- The walk from the entry node visits what the entry node leads to. -/
theorem visit_entry_grows {c : Catalog T} {g : Graph} {entry : NodeId} {w : Walk NodeId State}
    (h : visit c g .start entry = .ok w) :
    ∃ ids, Walk.Grows (expand c g) .start { w with finished := w.finished.reverse } ids ∧
      ∀ id, id ∈ ids ↔ Relation.ReflTransGen (LeadsTo c g) entry id := by
  obtain ⟨first, hgrows, hmem, hreach⟩ := Walk.visit_grows _ _ _ _ h
  have hentry : entry ∈ first := hgrows.mem_visited_iff.1 (hmem entry rfl)
  refine ⟨first.reverse, hgrows.reverse, fun id => ?_⟩
  rw [← hgrows.reaches_iff (fun _ hx => leads_iff_of_grows hgrows hx) hentry, List.mem_reverse]
  exact ⟨fun hid => (hreach id hid).1, hgrows.mem_of_reaches hentry⟩

end Compile

namespace Graph.Reordered

open Compile

variable {T : Type} [NodeSpec T] {c : Catalog T} {g g' : Graph}

theorem symm (h : g.Reordered g') : g'.Reordered g where
  nodes_perm := h.nodes_perm.symm
  nodeCount_eq := h.nodeCount_eq.symm
  node?_eq id := (h.node?_eq id).symm
  outputsOf_eq id := (h.outputsOf_eq id).symm
  incoming_iff id := (h.incoming_iff id).symm
  edgeOn?_eq id p := (h.edgeOn?_eq id p).symm
  startNode?_eq := h.startNode?_eq.symm
  metadata_eq := h.metadata_eq.symm

/-! ### What a node amounts to -/

theorem node_eq (h : g.Reordered g') : g'.node = g.node :=
  funext fun id => by rw [Graph.node, Graph.node, h.node?_eq]

theorem stateName_eq (h : g.Reordered g') : stateName g' = stateName g :=
  funext fun id => by rw [stateName, stateName, h.node_eq]

theorem handlersOf_eq (h : g.Reordered g') (c : Catalog T) : handlersOf c g' = handlersOf c g := by
  have hconnect : connectHandler (T := T) g' = connectHandler g := by
    funext t owner form output
    simp only [connectHandler, h.stateName_eq]
  funext id owner
  simp only [handlersOf, h.node_eq, h.outputsOf_eq, hconnect]

theorem expand_eq (h : g.Reordered g') (c : Catalog T) : expand c g' = expand c g := by
  have hconnect : connectOutput c g' = connectOutput c g := by
    funext t name acc output
    simp only [connectOutput, h.node_eq, h.stateName_eq, h.handlersOf_eq]
  funext id
  simp only [expand, h.node_eq, h.stateName_eq, h.outputsOf_eq, hconnect]

theorem visit_eq (h : g.Reordered g') (c : Catalog T) : visit c g' = visit c g := by
  funext w id
  rw [visit, visit, h.expand_eq, h.nodeCount_eq]

theorem startOf_eq (h : g.Reordered g') (c : Catalog T) : startOf c g' = startOf c g := by
  funext start entry
  simp only [startOf, h.node_eq, h.stateName_eq]

/-! ### Checks and roots -/

omit [NodeSpec T] in
theorem validate_ok (h : g.Reordered g') (hv : validate c g = .ok ()) : validate c g' = .ok () := by
  obtain ⟨hinit, hnames⟩ := validate_eq_ok_iff.1 hv
  obtain ⟨htypes, hnamed, hapart⟩ := checkNames_eq_ok_iff.1 hnames
  have hmem : ∀ e ∈ g'.nodes, e ∈ g.nodes := fun e => h.nodes_perm.mem_iff.1
  exact validate_eq_ok_iff.2 ⟨fun e he => hinit e (hmem e he), checkNames_eq_ok_iff.2
    ⟨fun e he => htypes e (hmem e he), fun e he => hnamed e (hmem e he),
      hapart.perm h.nodes_perm.symm fun hab => symm_of NamesApart hab⟩⟩

theorem roots_perm (h : g.Reordered g') : (roots g').Perm (roots g) := by
  have hsame : (g'.nodes.filter fun e => e.2.isPrimitive && (g'.incoming e.1).isEmpty)
      = g'.nodes.filter fun e => e.2.isPrimitive && (g.incoming e.1).isEmpty :=
    List.filter_congr fun e _ => by
      rw [Bool.eq_iff_iff.2 (List.isEmpty_iff.trans ((h.incoming_iff e.1).trans
        List.isEmpty_iff.symm))]
  rw [roots, hsame]
  exact (h.nodes_perm.filter _).map _

/-! ### Documents -/

/-- A walk that ends in one order of the nodes ends in every other one, first with the states that
the entry node leads to. -/
theorem statesOf_ok (h : g.Reordered g') (hg : g.Consistent) {entry : NodeId}
    {w : Walk NodeId State} (hw : statesOf c g entry = .ok w) :
    ∃ w' ids entered swept swept', statesOf c g' entry = .ok w' ∧ ids.Nodup ∧
      (∀ id, id ∈ ids ↔ Relation.ReflTransGen (LeadsTo c g) entry id) ∧
      List.Forall₂ (IsStateOf c g) ids entered ∧ w.finished = entered ++ swept ∧
      w'.finished = entered ++ swept' ∧ swept'.Perm swept := by
  rw [statesOf_eq] at hw
  obtain ⟨w₁, hentry, hroots⟩ := Except.bind_eq_ok_iff.1 hw
  obtain ⟨ids, hgrows, hids⟩ := visit_entry_grows hentry
  -- Only nodes of the graph can be expanded, so there is fuel for all of them in any order.
  have hknown : ∀ id s, (expand c g id).outcome = .ok s → id ∈ g.ids := by
    intro id s hs
    obtain ⟨n, -, -, -, -, hn, -⟩ := expand_outcome_iff.1 hs
    exact List.mem_map_of_mem (hg.mem_nodes_iff.2 hn)
  have hfuel : g.ids.length < g.nodeCount + 1 := by
    rw [Graph.ids, List.length_map, hg.length_nodes]
    exact Nat.lt_succ_self _
  obtain ⟨w', swept, swept', hroots', hfin, hfin', hperm⟩ :=
    Walk.foldlM_visit_perm hknown hfuel hgrows h.roots_perm hroots
  refine ⟨w', ids, _, swept, swept', ?_, hgrows.nodup, hids, forall₂_isStateOf hgrows, hfin, hfin',
    hperm⟩
  rw [statesOf_eq, h.visit_eq]
  exact Except.bind_eq_ok_iff.2 ⟨w₁, hentry, hroots'⟩

/-- A graph that is compiled is compiled in every order of its nodes. The documents agree on the
states that the entry state leads to, and are equal when the other states are started in the same
order. -/
theorem compile_ok (h : g.Reordered g') (hg : g.Consistent) {d : Document}
    (hd : (g.compile c).outcome = .ok d) :
    ∃ d', (g'.compile c).outcome = .ok d' ∧ AgreeOnEntry c g d d' ∧
      (roots g' = roots g → d' = d) := by
  obtain ⟨start, e, block, w, hv, hs, he, hb, hw, -, rfl⟩ :=
    compile_eq_ok_iff.1 (Traced.eq_of_outcome hd)
  obtain ⟨w', ids, entered, swept, swept', hw', hnd, hids, hstates, hfin, hfin', hperm⟩ :=
    h.statesOf_ok hg hw
  refine ⟨⟨g.metadata.extra, g.metadata.functions, some block, w'.finished⟩, ?_,
    ⟨rfl, rfl, rfl, start, e, ids, entered, swept, swept', hs, he, hnd, hids, hstates, hfin, hfin',
      hperm⟩, fun hroots => ?_⟩
  · have hcompile : g'.compile c = ⟨_, .ok _⟩ := compile_eq_ok_iff.2 ⟨start, e, block, w',
      h.validate_ok hv, h.startNode?_eq.trans hs, (h.edgeOn?_eq start 1).trans he,
      by rw [h.startOf_eq, hb], hw', rfl, rfl⟩
    rw [hcompile, h.metadata_eq]
  · have hsame : statesOf c g' e.target = statesOf c g e.target := by
      rw [statesOf_eq, statesOf_eq, h.visit_eq, hroots]
    obtain rfl := Except.ok.inj (hw'.symm.trans (hsame.trans hw))
    rfl

/-- A graph that cannot be compiled cannot be compiled in any other order of its nodes. -/
theorem compile_error (h : g.Reordered g') (hg' : g'.Consistent) {e : Error}
    (he : (g.compile c).outcome = .error e) : ∃ e', (g'.compile c).outcome = .error e' := by
  cases hd : (g'.compile c).outcome with
  | error e' => exact ⟨e', rfl⟩
  | ok d =>
    obtain ⟨d', hd', -⟩ := h.symm.compile_ok hg' hd
    rw [he] at hd'
    cases hd'

end Graph.Reordered

end Workflow
