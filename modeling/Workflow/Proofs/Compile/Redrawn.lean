import Workflow.Proofs.Compile.Reordered
import Workflow.Proofs.Edit.Reinserted
import Workflow.Proofs.Edit.Reproduced
import Workflow.Proofs.Import.Described

/-!
# Graphs whose edges were drawn in another order

A graph keeps the edges of a node by age, and an edge that was erased and drawn again is the youngest
one, in a cell that may have been another's. A compilation reads an edge as one of those behind an
output, and which edges arrive at a node only as far as there are any. So when no output has more
than one edge, nothing that a compilation reads depends on the age of edges
(`Graph.Holds.reordered`), and graphs with the same nodes and the same set of edges are compiled to
the same document or end with the same error (`Graph.compile_eq_of_mem_edges`).

This takes graphs in which an identifier names one node. Where one was given to a second node the list
of the edges does not tell from which of the two an edge leaves, and it is false that graphs with the
same lists are compiled to the same document (`Edit.compile_redrawn_reinserted`).
-/

namespace Workflow

open Import (SingleOutputs)

instance (edges : List Edge) : Decidable (SingleOutputs edges) :=
  inferInstanceAs (Decidable (edges.Pairwise _))

theorem Import.SingleOutputs.perm {edges edges' : List Edge} (h : SingleOutputs edges)
    (hperm : edges.Perm edges') : SingleOutputs edges' :=
  hperm.pairwise h fun hef hfe => hef ⟨hfe.1.symm, hfe.2.symm⟩

theorem Import.SingleOutputs.length_le_one {edges : List Edge} (h : SingleOutputs edges)
    (id : NodeId) (p : Port) :
    (edges.filter fun e => e.source = id && e.output = p).length ≤ 1 := by
  have hkept : ∀ e ∈ edges.filter (fun e => e.source = id && e.output = p),
      e.source = id ∧ e.output = p := fun e he => by simpa using (List.mem_filter.1 he).2
  have hpair := List.Pairwise.filter (fun e => e.source = id && e.output = p) h
  rcases hf : edges.filter fun e => e.source = id && e.output = p with _ | ⟨e, _ | ⟨f, rest⟩⟩
  · rw [hf]
    exact Nat.zero_le 1
  · rw [hf]
    exact Nat.le_refl 1
  · rw [hf] at hpair hkept
    obtain ⟨hes, hep⟩ := hkept e List.mem_cons_self
    obtain ⟨hfs, hfp⟩ := hkept f (List.mem_cons_of_mem _ List.mem_cons_self)
    exact absurd ⟨hes.trans hfs.symm, hep.trans hfp.symm⟩
      ((List.pairwise_cons.1 hpair).1 f List.mem_cons_self)

namespace Graph

variable {T : Type} [NodeSpec T] {g g' : Graph} {edges edges' : List Edge}

/-- Edges that are listed by a port are listed alike in every order. -/
theorem listedPorts_perm (count : PortCount) (portOf : Edge → Port) (h : edges'.Perm edges) :
    listedPorts count portOf edges' = listedPorts count portOf edges := by
  refine (pairwise_listedPorts count portOf edges').eq_of_mem_iff
    (pairwise_listedPorts count portOf edges) fun p => ?_
  simp only [mem_listedPorts, h.mem_iff]

/-- The nodes that a consistent graph lists are all that it knows. -/
theorem Consistent.node?_congr (h : g.Consistent) (h' : g'.Consistent)
    (hnodes : g'.nodes = g.nodes) (id : NodeId) : g'.node? id = g.node? id := by
  refine Option.ext fun n => ?_
  rw [← h'.mem_nodes_iff, ← h.mem_nodes_iff, hnodes]

namespace Holds

/-- An output with one edge has this edge whenever it was drawn. -/
theorem behind_eq (h : g.Holds edges) (h' : g'.Holds edges') (hperm : edges'.Perm edges)
    (hsingle : SingleOutputs edges) (id : NodeId) (p : Port) :
    (g'.outgoing id).filter (·.output = p) = (g.outgoing id).filter (·.output = p) := by
  rw [h'.filter_outgoing, h.filter_outgoing]
  exact (hperm.filter _).eq_of_length_le_one (hsingle.length_le_one id p)

theorem outputsOf_congr (h : g.Holds edges) (h' : g'.Holds edges') (hperm : edges'.Perm edges)
    (hsingle : SingleOutputs edges) (hnode : ∀ id, g'.node? id = g.node? id) (id : NodeId) :
    g'.outputsOf id = g.outputsOf id := by
  have hout : (g'.outgoing id).Perm (g.outgoing id) := by
    rw [h'.outgoing_eq, h.outgoing_eq]
    exact hperm.filter _
  have hports : ∀ count, byPort count Edge.output (g'.outgoing id) =
      byPort count Edge.output (g.outgoing id) := fun count => by
    rw [byPort_eq_map, byPort_eq_map, listedPorts_perm count Edge.output hout]
    exact List.map_congr_left fun p _ => congrArg (p, ·) (h.behind_eq h' hperm hsingle id p)
  simp only [outputsOf, Graph.node, hnode, hports]

/-- What a compilation reads is there in whatever order the edges were drawn. -/
theorem reordered (h : g.Holds edges) (h' : g'.Holds edges') (hnodes : g'.nodes = g.nodes)
    (hmeta : g'.metadata = g.metadata) (hperm : edges'.Perm edges)
    (hsingle : SingleOutputs edges) : g.Reordered g' where
  nodes_perm := .of_eq hnodes
  nodeCount_eq := by rw [← h'.consistent.length_nodes, hnodes, h.consistent.length_nodes]
  node?_eq := h.consistent.node?_congr h'.consistent hnodes
  outputsOf_eq :=
    h.outputsOf_congr h' hperm hsingle (h.consistent.node?_congr h'.consistent hnodes)
  incoming_iff id := by
    simp only [h'.incoming_eq, h.incoming_eq, List.filter_eq_nil_iff, hperm.mem_iff]
  edgeOn?_eq id p := by
    rw [h'.edgeOn?_eq_head?, h.edgeOn?_eq_head?, h.behind_eq h' hperm hsingle]
  startNode?_eq := by rw [startNode?, startNode?, hnodes]
  metadata_eq := hmeta

end Holds

/-- A compilation reads no more of a graph than what reordered graphs share and the list of the
nodes. -/
theorem Reordered.compile_eq (h : g.Reordered g') (hnodes : g'.nodes = g.nodes) (c : Catalog T) :
    g'.compile c = g.compile c := by
  have hroot : Compile.visitRoot c g' = Compile.visitRoot c g := by
    funext w e
    have hempty : (g'.incoming e.1).isEmpty = (g.incoming e.1).isEmpty :=
      Bool.eq_iff_iff.2 (by simp only [List.isEmpty_iff, h.incoming_iff])
    rw [Compile.visitRoot, Compile.visitRoot, hempty, h.visit_eq]
  have hvalid : Compile.validate c g' = Compile.validate c g := by
    rw [Compile.validate, Compile.validate, hnodes]
  have hstates : Compile.statesOf c g' = Compile.statesOf c g := by
    funext entry
    rw [Compile.statesOf, Compile.statesOf, h.visit_eq, hroot, hnodes]
  have hdropped : Compile.dropped g' = Compile.dropped g := by
    funext visited
    rw [Compile.dropped, Compile.dropped, hnodes]
  simp only [compile, hvalid, h.startNode?_eq, h.edgeOn?_eq, h.startOf_eq, hstates, hdropped,
    h.metadata_eq]

/-- Two graphs that list the same nodes, have the same metadata and the same edges, none of them with
a second edge behind its output, are compiled to the same document with the same warnings, or end
with the same error, however the edges came about. Every call leaves linked graphs; of these ones it
can be seen that their identifiers name one node each. -/
theorem compile_eq_of_mem_edges (c : Catalog T) (h : g.Linked) (h' : g'.Linked)
    (hnodup : g.ids.Nodup)
    (hfound : ∀ id ∈ g.ids, g.contains id = true ∧ g'.contains id = true)
    (hnodes : g'.nodes = g.nodes) (hmeta : g'.metadata = g.metadata)
    (hedges : ∀ e, e ∈ g'.edges ↔ e ∈ g.edges) (hsingle : SingleOutputs g.edges)
    (hsingle' : SingleOutputs g'.edges) : g'.compile c = g.compile c := by
  have hids : g'.ids = g.ids := congrArg (List.map Prod.fst) hnodes
  obtain ⟨edges, h⟩ :=
    h.exists_holds (h.consistent_iff.2 ⟨hnodup, fun id hid => (hfound id hid).1⟩)
  obtain ⟨edges', h'⟩ := h'.exists_holds (h'.consistent_iff.2
    ⟨hids ▸ hnodup, fun id hid => (hfound id (hids ▸ hid)).2⟩)
  have hperm : g'.edges.Perm g.edges :=
    (List.perm_ext_iff_of_nodup hsingle'.nodup hsingle.nodup).2 hedges
  have hages : edges'.Perm edges := (h'.edges_perm.symm.trans hperm).trans h.edges_perm
  exact (h.reordered h' hnodes hmeta hages (hsingle.perm h.edges_perm)).compile_eq hnodes c

end Graph

namespace Edit

/-- Calls that add a start node, a conditional, two further states and an error-catch node. -/
def placing : List Edit :=
  [.add (.ofNat 0) "start" [], .add (.ofNat 1) "switch" [("conditions", .arr [.obj []])],
    .add (.ofNat 2) "noop" [], .add (.ofNat 3) "noop" [],
    .add (.ofNat 4) "error-catch" [("catch", .arr [.obj [("error", .str "E")]])],
    .resizeOutputs (.ofNat 1) 3, .rename (.ofNat 1) "a", .rename (.ofNat 2) "b",
    .rename (.ofNat 3) "c", .setInitialized (.ofNat 1) true, .setInitialized (.ofNat 2) true,
    .setInitialized (.ofNat 3) true]

/-- Calls that draw edges from the entry state on. -/
def forwards : List Edit :=
  [.connect ⟨.ofNat 0, 1, .ofNat 1, 1⟩, .connect ⟨.ofNat 1, 1, .ofNat 2, 1⟩,
    .connect ⟨.ofNat 1, 2, .ofNat 4, 1⟩, .connect ⟨.ofNat 1, 3, .ofNat 3, 1⟩,
    .connect ⟨.ofNat 4, 1, .ofNat 3, 1⟩, .connect ⟨.ofNat 3, 1, .ofNat 2, 1⟩]

/-- Calls that draw the same edges from the other end. One edge gives way to another one, and one is
erased and drawn again. -/
def backwards : List Edit :=
  [.connect ⟨.ofNat 3, 1, .ofNat 1, 1⟩, .connect ⟨.ofNat 4, 1, .ofNat 3, 1⟩,
    .connect ⟨.ofNat 1, 3, .ofNat 3, 1⟩, .connect ⟨.ofNat 3, 1, .ofNat 2, 1⟩,
    .eraseEdge ⟨.ofNat 4, 1, .ofNat 3, 1⟩, .connect ⟨.ofNat 1, 2, .ofNat 4, 1⟩,
    .connect ⟨.ofNat 1, 1, .ofNat 2, 1⟩, .connect ⟨.ofNat 4, 1, .ofNat 3, 1⟩,
    .connect ⟨.ofNat 0, 1, .ofNat 1, 1⟩]

/-- The graph after edges were drawn between the nodes that `placing` adds. -/
def drawn (edits : List Edit) : Graph := run .standard (.empty .empty) (placing ++ edits)

theorem linked_drawn (edits : List Edit) : (drawn edits).Linked :=
  run_linked (Graph.linked_empty _) (placing ++ edits)

theorem compile_backwards :
    (drawn backwards).edges ≠ (drawn forwards).edges ∧
      ((drawn forwards).compile .standard).outcome.map (fun d => d.states.map State.id) =
        .ok ["a", "c", "b"] ∧
      (drawn backwards).compile .standard = (drawn forwards).compile .standard := by
  have hperm : (drawn backwards).edges.Perm (drawn forwards).edges := by decide +kernel
  exact ⟨by decide +kernel, by decide +kernel,
    Graph.compile_eq_of_mem_edges .standard (linked_drawn forwards) (linked_drawn backwards)
      (by decide +kernel) (by decide +kernel) (by decide +kernel) (by decide +kernel)
      (fun _ => hperm.mem_iff) (by decide +kernel) (by decide +kernel)⟩

/-- Calls that give the identifier of a state with an edge to another state. -/
def reinserting : List Edit :=
  [.insert (.ofNat 0) (.ofType "start" (NodeType.special 0 1 .entry) []),
    .insert (.ofNat 1) (Compile.emptyState "x"), .insert (.ofNat 2) (Compile.emptyState "z"),
    .addEdge ⟨.ofNat 1, 1, .ofNat 2, 1⟩, .insert (.ofNat 1) (Compile.emptyState "y"),
    .addEdge ⟨.ofNat 0, 1, .ofNat 1, 1⟩]

/-- Calls that draw this edge again, now from the other state. -/
def drawingAgain : List Edit :=
  [.erase (.ofNat 2), .insert (.ofNat 2) (Compile.emptyState "z"),
    .addEdge ⟨.ofNat 1, 1, .ofNat 2, 1⟩]

/-- The lists of the nodes and the edges are the same before and after an edge was drawn from the
other one of two nodes with one identifier, and the documents are not. -/
theorem compile_redrawn_reinserted :
    let before := run .standard (.empty .empty) reinserting
    let after := run .standard before drawingAgain
    after.nodes = before.nodes ∧ after.metadata = before.metadata ∧ after.edges = before.edges ∧
      SingleOutputs before.edges ∧
      (before.compile .standard).outcome =
        .ok ⟨[], none, some ⟨none, some "y", []⟩, [⟨"y", "noop", [], none⟩]⟩ ∧
      (after.compile .standard).outcome =
        .ok ⟨[], none, some ⟨none, some "y", []⟩,
          [⟨"y", "noop", [("transition", .str "z")], none⟩, ⟨"z", "noop", [], none⟩]⟩ := by
  decide +kernel

end Edit

end Workflow
