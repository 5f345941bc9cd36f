import Mathlib.Data.List.Sort
import Workflow.Proofs.Compile.Reordered
import Workflow.Proofs.Edit.Represents
import Workflow.Proofs.Graph.Stored

/-!
# Edited graphs that are stored and loaded

After any session a graph can be loaded from its snapshot. The new graph lists its nodes by
identifier and has its edges in the order in which the old one lists them, while a compilation takes
the first start node, goes through the states that nothing leads to as they are listed, and follows
the edges of an output by age. The new graph is compiled like the old one where these orders agree
(`Edit.session_reloaded`); each of them counts (`Edit.session_reloaded_otherwise`).
-/

namespace Workflow

namespace Graph

/-- The first start node that the graph lists has the least identifier of all start nodes. -/
def StartIsLeast (g : Graph) : Prop :=
  ∀ start ∈ g.startNode?, ∀ e ∈ g.nodes, e.2.isStart = true → ¬e.1.bits < start.bits

/-- The graph lists the edges of an output by age. -/
def ListsByAge (g : Graph) (id : NodeId) (p : Port) : Prop :=
  g.edges.filter (fun e => e.source = id && e.output = p) = (g.outgoing id).filter (·.output = p)

/-- The graph lists the edges of every output that takes more than one by age. -/
def FansByAge (g : Graph) : Prop := ∀ e ∈ g.nodes, ∀ p ∈ e.2.fanOut, g.ListsByAge e.1 p

instance (g : Graph) : Decidable g.StartIsLeast :=
  inferInstanceAs (Decidable (∀ start ∈ g.startNode?, _))

instance (g : Graph) (id : NodeId) (p : Port) : Decidable (g.ListsByAge id p) :=
  inferInstanceAs (Decidable (_ = _))

-- The outputs of a node are gone through, and not all ports that there are.
instance (g : Graph) : Decidable g.FansByAge :=
  @List.decidableBAll _ (fun e : NodeId × Node => ∀ p ∈ e.2.fanOut, g.ListsByAge e.1 p)
    (fun _ => List.decidableBAll _ _) g.nodes

/-- In a sorted list the first of the nodes with a property is the least one, wherever it was listed
first before. -/
theorem find?_eq_of_sorted {es es' : List (NodeId × Node)} {p : NodeId × Node → Bool}
    (hperm : es'.Perm es) (hsorted : es'.Pairwise fun a b => a.1.bits < b.1.bits)
    (hleast : ∀ e, es.find? p = some e → ∀ f ∈ es, p f = true → ¬f.1.bits < e.1.bits) :
    es'.find? p = es.find? p := by
  cases he : es.find? p with
  | none =>
    rw [List.find?_eq_none] at he ⊢
    exact fun f hf => he f (hperm.mem_iff.1 hf)
  | some e =>
    have hmem : e ∈ es' := hperm.mem_iff.2 (List.mem_of_find?_eq_some he)
    cases he' : es'.find? p with
    | none => exact absurd (List.find?_some he) (List.find?_eq_none.1 he' e hmem)
    | some e' =>
      obtain ⟨hp', before, after, rfl, hbefore⟩ := List.find?_eq_some_iff_append.1 he'
      rcases List.mem_append.1 hmem with hmem | hmem
      · have hnot := hbefore e hmem
        rw [List.find?_some he] at hnot
        cases hnot
      · rcases List.mem_cons.1 hmem with rfl | hmem
        · rfl
        · -- Then `e` comes behind `e'`, whose identifier is less.
          have hlt := (List.pairwise_cons.1 (List.pairwise_append.1 hsorted).2.1).1 e hmem
          have hmem' : e' ∈ es :=
            hperm.mem_iff.1 (List.mem_append_right before List.mem_cons_self)
          exact absurd hlt (hleast e he e' hmem' hp')

namespace Sound

variable {g g' : Graph} {edges : List Edge}

/-- Then the graph lists the edges of all outputs by age: those of the others are one at most. -/
theorem listsByAge (h : g.Sound edges) (hage : g.FansByAge) (id : NodeId) (p : Port) :
    g.ListsByAge id p := by
  have hout : (g.outgoing id).filter (·.output = p)
      = edges.filter fun e => e.source = id && e.output = p := h.filter_outgoing id _
  have hperm : (g.edges.filter fun e => e.source = id && e.output = p).Perm
      ((g.outgoing id).filter (·.output = p)) := hout ▸ h.edges_perm.filter _
  rw [ListsByAge]
  cases hn : g.node? id with
  | none =>
    have hnil : (g.outgoing id).filter (·.output = p) = [] := by
      rw [hout, List.filter_eq_nil_iff]
      intro e he hsource
      obtain ⟨source, -, hs, -⟩ := h.exists_ends he
      simp only [Bool.and_eq_true, decide_eq_true_eq] at hsource
      rw [hsource.1, hn] at hs
      cases hs
    rw [hnil] at hperm ⊢
    exact hperm.eq_nil
  | some n =>
    cases hfan : n.allowsFanOut p with
    | true =>
      exact hage (id, n) (h.consistent.mem_nodes_iff.2 hn) p (by simpa [Node.allowsFanOut] using hfan)
    | false =>
      exact hperm.eq_of_length_le_one (hout ▸ h.single id n p hn hfan)

/-- The loaded graph lists its nodes in another order, and differs in nothing else that a
compilation reads. -/
theorem reordered (h : g.Sound edges) (hstart : g.StartIsLeast) (hage : g.FansByAge)
    (hload : g.snapshot.toGraph = .ok g')
    (hshows : g'.Shows (NodeTable.ofList g.nodes).entries g.edges)
    (hmeta : g'.metadata = g.metadata) : g.Reordered g' := by
  obtain ⟨edges', h'⟩ := Snapshot.toGraph_sound hload
  have hperm : g'.nodes.Perm g.nodes := by
    rw [hshows.nodes_eq]
    exact NodeTable.ofList_perm h.consistent.nodup_ids
  have hnode : ∀ id, g'.node? id = g.node? id := fun id => Option.ext fun n => by
    rw [← h'.consistent.mem_nodes_iff, hperm.mem_iff, h.consistent.mem_nodes_iff]
  have hbehind : ∀ id p, (g'.outgoing id).filter (·.output = p)
      = (g.outgoing id).filter (·.output = p) := by
    intro id p
    rw [hshows.holds.filter_outgoing]
    exact h.listsByAge hage id p
  refine ⟨hperm, ?_, hnode, fun id => ?_, fun id => ?_, fun id p => ?_, ?_, hmeta⟩
  · rw [← h'.consistent.length_nodes, ← h.consistent.length_nodes, hperm.length_eq]
  · cases hn : g.node? id with
    | none => simp [outputsOf, Graph.node, hn, hnode]
    | some n =>
      rw [h.outputsOf_eq hn, h'.outputsOf_eq ((hnode id).trans hn)]
      simp only [hbehind]
  · rw [hshows.incoming_eq, h.incoming_eq]
    exact ⟨fun hnil => by simpa [hnil] using (h.edges_perm.filter (·.target = id)).symm,
      fun hnil => by simpa [hnil] using h.edges_perm.filter (·.target = id)⟩
  · rw [h'.edgeOn?_eq_head?, h.edgeOn?_eq_head?, hbehind]
  · refine congrArg (Option.map Prod.fst) (find?_eq_of_sorted hperm ?_ fun e he => ?_)
    · rw [hshows.nodes_eq]
      exact (NodeTable.ofList g.nodes).sorted
    · exact hstart e.1 (congrArg (Option.map Prod.fst) he)

end Sound

end Graph

namespace Edit

variable {T : Type} [NodeSpec T] {c : Catalog T} {g : Graph}

/-- After any session the graph can be loaded from its snapshot. If its first start node has the
least identifier, and the edges of outputs that take more than one are listed by age, then the loaded
graph is compiled like the old one: both are not compiled, or their documents agree but for the order
of the states that the entry state does not lead to. The documents are equal when the graph lists
the states that nothing leads to by identifier. -/
theorem session_reloaded {start : Graph} (hstart : IsOrigin start) (h : Session c Fresh start g) :
    ∃ g', g.snapshot.toGraph = .ok g' ∧ (g.StartIsLeast → g.FansByAge →
      (∃ e e', (g.compile c).outcome = .error e ∧ (g'.compile c).outcome = .error e') ∨
      ∃ d d', (g.compile c).outcome = .ok d ∧ (g'.compile c).outcome = .ok d' ∧
        Compile.AgreeOnEntry c g d d' ∧
        ((Compile.roots g).Pairwise (fun x y => x.bits < y.bits) → d' = d)) := by
  obtain ⟨edges, hedges⟩ := hstart.sound
  obtain ⟨edges, hg⟩ := Session.sound h hedges
  obtain ⟨g', hload, hshows, hmeta⟩ := hg.reloads
  refine ⟨g', hload, fun hleast hage => ?_⟩
  have hsame := hg.reordered hleast hage hload hshows hmeta
  cases hd : (g.compile c).outcome with
  | error e =>
    obtain ⟨e', he'⟩ := hsame.compile_error hshows.consistent hd
    exact .inl ⟨e, e', rfl, he'⟩
  | ok d =>
    obtain ⟨d', hd', hagree, heq⟩ := hsame.compile_ok hg.consistent hd
    refine .inr ⟨d, d', rfl, hd', hagree, fun hsorted => heq ?_⟩
    have hsorted' : (Compile.roots g').Pairwise fun x y => x.bits < y.bits := by
      rw [Compile.roots, hshows.nodes_eq]
      exact List.pairwise_map.2 ((NodeTable.ofList g.nodes).sorted.filter _)
    exact hsame.roots_perm.eq_of_pairwise
      (fun x y _ _ hxy hyx => absurd hxy (BitVec.lt_asymm hyx)) hsorted' hsorted

/-- A start node as the catalog makes it. -/
def startNode : Node := .ofType "start" (NodeType.special 0 1 .entry) []

/-- A state whose transition takes more than one edge. -/
def forkState (name : String) : Node := { Compile.emptyState name with fanOut := [1] }

/-- Calls after which the cell of an edge is used again, by an edge of another node. -/
def forking : List Edit :=
  [.insert (.ofNat 0) startNode, .insert (.ofNat 1) (forkState "entry"),
    .insert (.ofNat 2) (Compile.emptyState "a"), .insert (.ofNat 3) (Compile.emptyState "b"),
    .insert (.ofNat 4) (Compile.emptyState "c"), .addEdge ⟨.ofNat 4, 1, .ofNat 2, 1⟩,
    .addEdge ⟨.ofNat 1, 1, .ofNat 3, 1⟩, .addEdge ⟨.ofNat 1, 1, .ofNat 2, 1⟩,
    .eraseEdge ⟨.ofNat 4, 1, .ofNat 2, 1⟩, .addEdge ⟨.ofNat 0, 1, .ofNat 1, 1⟩]

/-- The graph after `forking`. -/
def forked : Graph := run .standard (.empty .empty) forking

/-- The document of `forked`. -/
def forkedDocument : Document :=
  ⟨[], none, some ⟨none, some "entry", []⟩,
    [⟨"entry", "noop", [("transition", .str "b")], none⟩, ⟨"a", "noop", [], none⟩,
      ⟨"b", "noop", [], none⟩, ⟨"c", "noop", [], none⟩]⟩

theorem session_reloaded_forked :
    (forked.compile .standard).outcome = .ok forkedDocument ∧
      ∃ g', forked.snapshot.toGraph = .ok g' ∧
        (g'.compile .standard).outcome = .ok forkedDocument := by
  have hcompile : (forked.compile .standard).outcome = .ok forkedDocument := by decide +kernel
  have hsession : Session .standard Fresh (.empty .empty) forked :=
    Session.run (by decide +kernel)
  obtain ⟨g', hload, h⟩ := session_reloaded (.inl ⟨.empty, rfl⟩) hsession
  refine ⟨hcompile, g', hload, ?_⟩
  rcases h (by decide +kernel) (by decide +kernel) with ⟨e, e', he, -⟩ | ⟨d, d', hd, hd', -, heq⟩
  · rw [hcompile] at he
    cases he
  · obtain rfl := Except.ok.inj (hcompile.symm.trans hd)
    rw [hd', heq (by decide +kernel)]

/-- Calls that put in two states which nothing leads to, the one with the greater identifier first. -/
def sweeping : List Edit :=
  [.insert (.ofNat 0) startNode, .insert (.ofNat 1) (Compile.emptyState "entry"),
    .insert (.ofNat 9) (Compile.emptyState "a"), .insert (.ofNat 5) (Compile.emptyState "b"),
    .addEdge ⟨.ofNat 0, 1, .ofNat 1, 1⟩]

/-- Calls that put in two start nodes, the one with the greater identifier first. -/
def startingTwice : List Edit :=
  [.insert (.ofNat 7) startNode, .insert (.ofNat 2) startNode,
    .insert (.ofNat 8) (Compile.emptyState "a"), .insert (.ofNat 9) (Compile.emptyState "b"),
    .addEdge ⟨.ofNat 7, 1, .ofNat 8, 1⟩, .addEdge ⟨.ofNat 2, 1, .ofNat 9, 1⟩]

/-- Calls after which the newer edge of an output is in the cell of an edge that is gone. -/
def refilling : List Edit :=
  [.insert (.ofNat 0) startNode, .insert (.ofNat 1) (forkState "entry"),
    .insert (.ofNat 2) (Compile.emptyState "a"), .insert (.ofNat 3) (Compile.emptyState "b"),
    .addEdge ⟨.ofNat 2, 1, .ofNat 3, 1⟩, .addEdge ⟨.ofNat 1, 1, .ofNat 2, 1⟩,
    .eraseEdge ⟨.ofNat 2, 1, .ofNat 3, 1⟩, .addEdge ⟨.ofNat 1, 1, .ofNat 3, 1⟩,
    .addEdge ⟨.ofNat 0, 1, .ofNat 1, 1⟩]

/-- The document of a graph after it was stored and loaded. -/
def compileReloaded (g : Graph) : Except Error Document := do
  ((← g.snapshot.toGraph).compile .standard).outcome

/-- The graph after the calls is compiled to states with the ids `before`, and once it was stored and
loaded to states with the ids `after`. -/
structure Turns (edits : List Edit) (before after : List String) : Prop where
  session : Session .standard Fresh (.empty .empty) (run .standard (.empty .empty) edits)
  compiled : (((run .standard (.empty .empty) edits).compile .standard).outcome.map fun d =>
    d.states.map State.id) = .ok before
  reloaded : ((compileReloaded (run .standard (.empty .empty) edits)).map fun d =>
    d.states.map State.id) = .ok after

/-- Each of the three orders counts: that of the states which nothing leads to, that of the start
nodes, and that of the edges behind one output. -/
theorem session_reloaded_otherwise :
    Turns sweeping ["entry", "a", "b"] ["entry", "b", "a"] ∧ Turns startingTwice ["a"] ["b"] ∧
      Turns refilling ["entry", "b", "a"] ["entry", "a", "b"] := by
  refine ⟨⟨Session.run ?_, ?_, ?_⟩, ⟨Session.run ?_, ?_, ?_⟩, ⟨Session.run ?_, ?_, ?_⟩⟩ <;>
    decide +kernel

end Edit

end Workflow
