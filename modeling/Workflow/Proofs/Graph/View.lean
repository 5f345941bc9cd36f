import Workflow.Proofs.Graph.Holds

/-!
# Graphs from which nothing was erased

`Graph.Shows` describes a graph that was built by insertions alone: its nodes and its edges are two
lists in the order in which they were put in, and every question about the graph is a question about
these lists.
-/

namespace Workflow.Graph

/-- The graph has these nodes and these edges, and nothing was ever erased from it. -/
structure Shows (g : Graph) (nodes : List (NodeId × Node)) (edges : List Edge) : Prop where
  full : g.nodeArena.Full (nodes.map Prod.snd)
  owner?_eq : ∀ i, g.owner? i = (nodes[i]?).map Prod.fst
  consistent : g.Consistent
  linked : ∃ links, g.links.Full links ∧
    List.Forall₂ (fun l e => g.edgeOf? l = some e) links edges

theorem shows_empty (metadata : Metadata) : (empty metadata).Shows [] [] where
  full := .empty
  owner?_eq _ := rfl
  consistent := consistent_empty metadata
  linked := ⟨[], .empty, .nil⟩

namespace Shows

variable {g : Graph} {nodes : List (NodeId × Node)} {edges : List Edge}

theorem nodes_eq (h : g.Shows nodes edges) : g.nodes = nodes := by
  have hlisted : g.nodeArena.listed = nodes.zipIdx.map fun e => (e.2, e.1.2) := by
    rw [h.full.listed_eq, List.zipIdx_map, List.map_map]
    rfl
  have hpairs : nodes.zipIdx.filterMap (fun e => (g.owner? e.2).map (·, e.1.2))
      = nodes.zipIdx.map Prod.fst := by
    rw [← List.filterMap_eq_map]
    refine List.filterMap_congr fun e he => ?_
    rw [h.owner?_eq, List.mk_mem_zipIdx_iff_getElem?.1 he]
    rfl
  rw [Graph.nodes, hlisted, List.filterMap_map]
  exact hpairs.trans (List.zipIdx_map_fst 0 nodes)

theorem nodeCount_eq (h : g.Shows nodes edges) : g.nodeCount = nodes.length :=
  h.full.size.trans (List.length_map _)

theorem node?_eq_some_iff (h : g.Shows nodes edges) {id : NodeId} {n : Node} :
    g.node? id = some n ↔ (id, n) ∈ nodes := by
  rw [← h.consistent.mem_nodes_iff, h.nodes_eq]

theorem owner?_eq_some_iff (h : g.Shows nodes edges) {id : NodeId} {i : Nat} :
    g.owner? i = some id ↔ ∃ n, nodes[i]? = some (id, n) := by
  rw [h.owner?_eq]
  simp

theorem cell?_eq_some_iff (h : g.Shows nodes edges) {id : NodeId} {i : Nat} :
    g.cell? id = some i ↔ ∃ n, nodes[i]? = some (id, n) := by
  rw [h.consistent.cell_iff, h.owner?_eq_some_iff]

theorem contains_iff (h : g.Shows nodes edges) {id : NodeId} :
    g.contains id = true ↔ id ∈ nodes.map Prod.fst := by
  rw [contains, Option.isSome_iff_exists]
  simp only [h.cell?_eq_some_iff]
  rw [List.mem_map]
  constructor
  · rintro ⟨i, n, hi⟩
    exact ⟨(id, n), List.mem_of_getElem? hi, rfl⟩
  · rintro ⟨⟨_, n⟩, hmem, rfl⟩
    obtain ⟨i, hi⟩ := List.mem_iff_getElem?.1 hmem
    exact ⟨i, n, hi⟩

/-- No identifier is listed twice. -/
theorem nodup (h : g.Shows nodes edges) : (nodes.map Prod.fst).Nodup := by
  rw [List.nodup_iff_getElem?_ne_getElem?]
  intro i j hij hj he
  have hcell : ∀ k, (hk : k < nodes.length) → g.cell? nodes[k].1 = some k := fun k hk =>
    h.cell?_eq_some_iff.2 ⟨nodes[k].2, List.getElem?_eq_getElem hk⟩
  rw [List.length_map] at hj
  have hi : i < nodes.length := by omega
  rw [List.getElem?_map, List.getElem?_map, List.getElem?_eq_getElem hi,
    List.getElem?_eq_getElem hj, Option.map_some, Option.map_some] at he
  have hcells := hcell i hi
  rw [Option.some.inj he, hcell j hj] at hcells
  exact absurd (Option.some.inj hcells) (Nat.ne_of_gt hij)

/-- The edges by age. -/
theorem holds (h : g.Shows nodes edges) : g.Holds edges := by
  obtain ⟨links, hfull, hlinks⟩ := h.linked
  have hvalues : g.links.entries.reverse.map Prod.snd = links := by
    rw [hfull.entries, List.map_map]
    exact List.zipIdx_map_fst 0 links
  rw [← hvalues, List.forall₂_map_left_iff] at hlinks
  refine ⟨h.consistent, hfull.tidy, ?_⟩
  rw [← List.reverse_reverse g.links.entries]
  exact List.rel_reverse hlinks

theorem edges_eq (h : g.Shows nodes edges) : g.edges = edges := by
  obtain ⟨links, hfull, hlinks⟩ := h.linked
  rw [Graph.edges, hfull.toList_eq]
  exact hlinks.filterMap_eq

theorem outgoing_eq (h : g.Shows nodes edges) (id : NodeId) :
    g.outgoing id = edges.filter (·.source = id) := h.holds.outgoing_eq id

theorem incoming_eq (h : g.Shows nodes edges) (id : NodeId) :
    g.incoming id = edges.filter (·.target = id) := h.holds.incoming_eq id

theorem edgeOn?_eq (h : g.Shows nodes edges) (id : NodeId) (p : Port) :
    g.edgeOn? id p = edges.find? fun e => e.source = id && e.output = p := h.holds.edgeOn?_eq id p

theorem insert (h : g.Shows nodes edges) {id : NodeId} (hid : id ∉ nodes.map Prod.fst)
    (n : Node) : (g.insert id n).Shows (nodes ++ [(id, n)]) edges where
  full := by
    rw [List.map_append]
    exact h.full.insert n
  owner?_eq i := by
    rw [owner?_insert, h.full.nextCell, List.length_map, h.owner?_eq]
    rcases Nat.lt_trichotomy i nodes.length with hlt | rfl | hgt
    · rw [if_neg (Nat.ne_of_gt hlt), List.getElem?_append_left hlt]
    · simp
    · rw [if_neg (Nat.ne_of_lt hgt), List.getElem?_eq_none (Nat.le_of_lt hgt),
        List.getElem?_eq_none (by simpa using Nat.succ_le_of_lt hgt)]
  consistent := h.consistent.insert
    (Bool.eq_false_iff.2 fun hc => hid (h.contains_iff.1 hc)) n
  linked := by
    obtain ⟨links, hfull, hlinks⟩ := h.linked
    refine ⟨links, hfull, hlinks.imp fun l e hle => ?_⟩
    obtain ⟨hs, ht, ho, hi⟩ := edgeOf?_eq_some_iff.1 hle
    have hkeep : ∀ i other, g.owner? i = some other → (g.insert id n).owner? i = some other := by
      intro i other ho
      rw [h.consistent.labelled.owner?_insert_of_isSome id n (by rw [ho]; rfl), ho]
    exact edgeOf?_eq_some_iff.2 ⟨hkeep _ _ hs, hkeep _ _ ht, ho, hi⟩

/-- Adding an edge puts it behind the others; its ends are ports of nodes, and its output is free or
takes more than one edge. -/
theorem addEdge (h : g.Shows nodes edges) {e : Edge} {g' : Graph} (he : g.addEdge e = .ok g') :
    g'.Shows nodes (edges ++ [e]) ∧ g'.metadata = g.metadata ∧ ∃ source target,
      (e.source, source) ∈ nodes ∧ (e.target, target) ∈ nodes ∧
      e.output.isWithin source.outputs = true ∧ e.input.isWithin target.inputs = true ∧
      (source.allowsFanOut e.output = true ∨
        ∀ f ∈ edges, ¬(f.source = e.source ∧ f.output = e.output)) := by
  obtain ⟨i, j, source, target, hi, hj, hs, ht, ho, hin, hfree, rfl⟩ := addEdge_eq_ok_iff.1 he
  refine ⟨⟨h.full, h.owner?_eq, h.consistent.congr rfl rfl rfl, ?_⟩, rfl, source, target,
    h.node?_eq_some_iff.1 hs, h.node?_eq_some_iff.1 ht, ho, hin, hfree.imp_right fun hnone => ?_⟩
  · obtain ⟨links, hfull, hlinks⟩ := h.linked
    refine ⟨links ++ [⟨i, e.output, j, e.input⟩], hfull.insert _, ?_⟩
    refine List.rel_append hlinks (.cons ?_ .nil)
    exact edgeOf?_eq_some_iff.2
      ⟨(h.consistent.cell_iff _ _).1 hi, (h.consistent.cell_iff _ _).1 hj, rfl, rfl⟩
  · rw [h.edgeOn?_eq, List.find?_eq_none] at hnone
    intro f hf hfe
    exact hnone f hf (by simp [hfe])

/-- An edge that joins ports of nodes is added when its output is free or takes more than one. -/
theorem addEdge_ok (h : g.Shows nodes edges) {e : Edge} {source target : Node}
    (hs : (e.source, source) ∈ nodes) (ht : (e.target, target) ∈ nodes)
    (ho : e.output.isWithin source.outputs = true) (hi : e.input.isWithin target.inputs = true)
    (hfree : source.allowsFanOut e.output = true ∨
      ∀ f ∈ edges, ¬(f.source = e.source ∧ f.output = e.output)) : ∃ g', g.addEdge e = .ok g' := by
  have hs := h.node?_eq_some_iff.2 hs
  have ht := h.node?_eq_some_iff.2 ht
  obtain ⟨i, hi', -⟩ := Graph.node?_eq_some_iff.1 hs
  obtain ⟨j, hj, -⟩ := Graph.node?_eq_some_iff.1 ht
  refine ⟨_, addEdge_eq_ok_iff.2 ⟨i, j, source, target, hi', hj, hs, ht, ho, hi, ?_, rfl⟩⟩
  refine hfree.imp_right fun hnone => ?_
  rw [h.edgeOn?_eq, List.find?_eq_none]
  intro f hf
  simpa using hnone f hf

end Shows

end Workflow.Graph
