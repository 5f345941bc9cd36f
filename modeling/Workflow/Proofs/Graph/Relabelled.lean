import Workflow.Proofs.Alike
import Workflow.Proofs.Graph.Ports

/-!
# Graphs with other identifiers

Two graphs are `Relabelled` when they differ in the identifiers of their nodes alone, and a relation
pairs these. Every question about identifiers that are paired has answers that match, and every
change leaves graphs that are paired again: `Relabelled.node?_eq`, `Relabelled.outgoing_rel`,
`Relabelled.insert`, `Relabelled.addEdge`. Errors name nodes, so they match in their kinds only.
-/

namespace Workflow

/-- The errors are of one kind. -/
def Error.SameKind (e e' : Error) : Prop := e.kind = e'.kind

theorem Error.sameKind_self (e : Error) : e.SameKind e := rfl

/-- The edges join the same ports of nodes that `R` pairs. -/
structure Edge.Relabelled (R : NodeId → NodeId → Prop) (e e' : Edge) : Prop where
  source : R e.source e'.source
  output : e.output = e'.output
  target : R e.target e'.target
  input : e.input = e'.input

namespace Graph

/-- The graphs are the same, but for identifiers that `R` pairs. -/
structure Relabelled (R : NodeId → NodeId → Prop) (g g' : Graph) : Prop where
  nodeArena : g.nodeArena = g'.nodeArena
  cells : List.Forall₂ (fun c c' => R c.1 c'.1 ∧ c.2 = c'.2) g.cells g'.cells
  owners : List.Forall₂ (fun o o' => o.1 = o'.1 ∧ R o.2 o'.2) g.owners g'.owners
  links : g.links = g'.links
  metadata : g.metadata = g'.metadata

variable {R : NodeId → NodeId → Prop} {g g' : Graph} {id id' : NodeId}

theorem relabelled_empty (R : NodeId → NodeId → Prop) (metadata : Metadata) :
    Relabelled R (empty metadata) (empty metadata) := ⟨rfl, .nil, .nil, rfl, rfl⟩

/-- Edges that match are listed by the same ports. -/
theorem outputs_rel {count : PortCount} {es es' : List Edge}
    (h : List.Forall₂ (Edge.Relabelled R) es es') :
    List.Forall₂ (fun output output' => output.1 = output'.1 ∧
        List.Forall₂ (Edge.Relabelled R) output.2 output'.2)
      (byPort count Edge.output es) (byPort count Edge.output es') := by
  have hports : listedPorts count Edge.output es = listedPorts count Edge.output es' := by
    -- The ports are listed from the edges, of which only the outputs are read.
    unfold listedPorts
    generalize Port.all count = ports
    induction h generalizing ports with
    | nil => rfl
    | cons he _ ih => rw [List.foldl_cons, List.foldl_cons, he.output, ih]
  rw [byPort_eq_map, byPort_eq_map, ← hports, List.forall₂_map_left_iff, List.forall₂_map_right_iff]
  refine List.forall₂_same.2 fun p _ => ⟨rfl, h.filter fun e _ e' he => ?_⟩
  rw [he.output]

namespace Relabelled

theorem nodeCount_eq (h : Relabelled R g g') : g.nodeCount = g'.nodeCount :=
  congrArg Arena.size h.nodeArena

/-! ### Nodes -/

theorem owner?_rel (h : Relabelled R g g') (i : Nat) : Option.Rel R (g.owner? i) (g'.owner? i) := by
  refine (h.owners.find?_rel fun o o' ho => ?_).map fun o o' ho => ho.2
  rw [ho.1]

theorem cell?_eq (h : Relabelled R g g') (hR : Relator.BiUnique R) (hid : R id id') :
    g.cell? id = g'.cell? id' := by
  refine Option.Rel.eq ((h.cells.find?_rel fun c c' hc => ?_).map fun c c' hc => hc.2)
  exact decide_eq_decide.2 (Relator.rel_eq hR hc.1 hid)

theorem node?_eq (h : Relabelled R g g') (hR : Relator.BiUnique R) (hid : R id id') :
    g.node? id = g'.node? id' := by
  rw [node?, node?, h.cell?_eq hR hid, h.nodeArena]

theorem node_alike (h : Relabelled R g g') (hR : Relator.BiUnique R) (hid : R id id') :
    Except.Alike Error.SameKind Eq (g.node id) (g'.node id') := by
  rw [node, node, h.node?_eq hR hid]
  cases g'.node? id' with
  | none => exact .error rfl
  | some n => exact .ok rfl

/-- The nodes are listed in the same order. -/
theorem nodes_rel (h : Relabelled R g g') :
    List.Forall₂ (fun e e' => R e.1 e'.1 ∧ e.2 = e'.2) g.nodes g'.nodes := by
  rw [nodes, nodes, ← h.nodeArena]
  refine List.Forall₂.filterMap_rel (S := Eq) (List.forall₂_same.2 fun _ _ => rfl) ?_
  rintro e _ rfl
  exact (h.owner?_rel e.1).map fun _ _ hid => ⟨hid, rfl⟩

theorem startNode?_rel (h : Relabelled R g g') : Option.Rel R g.startNode? g'.startNode? :=
  (h.nodes_rel.find?_rel fun e e' he => by rw [he.2]).map fun _ _ he => he.1

theorem insert (h : Relabelled R g g') (hR : Relator.BiUnique R) (hid : R id id') (n : Node) :
    Relabelled R (g.insert id n) (g'.insert id' n) where
  nodeArena := congrArg (Arena.insert · n) h.nodeArena
  cells := by
    refine .cons ⟨hid, congrArg Arena.nextCell h.nodeArena⟩ (h.cells.filter fun c _ c' hc => ?_)
    exact decide_eq_decide.2 (Relator.rel_eq hR hc.1 hid).not
  owners := by
    refine .cons ⟨congrArg Arena.nextCell h.nodeArena, hid⟩ (h.owners.filter fun o _ o' ho => ?_)
    rw [ho.1, h.nodeArena]
  links := h.links
  metadata := h.metadata

/-! ### Edges -/

theorem edgeOf?_rel (h : Relabelled R g g') (l : Link) :
    Option.Rel (Edge.Relabelled R) (g.edgeOf? l) (g'.edgeOf? l) := by
  have hsource := h.owner?_rel l.source
  have htarget := h.owner?_rel l.target
  unfold edgeOf?
  generalize g.owner? l.source = source, g'.owner? l.source = source' at hsource
  generalize g.owner? l.target = target, g'.owner? l.target = target' at htarget
  cases hsource with
  | none => exact .none
  | some hs =>
    cases htarget with
    | none => exact .none
    | some ht => exact .some ⟨hs, rfl, ht, rfl⟩

/-- The edges that links stand for. -/
theorem edges_rel (h : Relabelled R g g') (links : List (Nat × Link)) :
    List.Forall₂ (Edge.Relabelled R) (links.filterMap fun e => g.edgeOf? e.2)
      (links.filterMap fun e => g'.edgeOf? e.2) := by
  refine List.Forall₂.filterMap_rel (S := Eq) (List.forall₂_same.2 fun _ _ => rfl) ?_
  rintro e _ rfl
  exact h.edgeOf?_rel e.2

theorem outgoing_rel (h : Relabelled R g g') (hR : Relator.BiUnique R) (hid : R id id') :
    List.Forall₂ (Edge.Relabelled R) (g.outgoing id) (g'.outgoing id') := by
  rw [outgoing, outgoing, h.cell?_eq hR hid, h.links]
  cases g'.cell? id' with
  | none => exact .nil
  | some i => exact h.edges_rel _

theorem incoming_rel (h : Relabelled R g g') (hR : Relator.BiUnique R) (hid : R id id') :
    List.Forall₂ (Edge.Relabelled R) (g.incoming id) (g'.incoming id') := by
  rw [incoming, incoming, h.cell?_eq hR hid, h.links]
  cases g'.cell? id' with
  | none => exact .nil
  | some i => exact h.edges_rel _

theorem edgeOn?_rel (h : Relabelled R g g') (hR : Relator.BiUnique R) (hid : R id id') (p : Port) :
    Option.Rel (Edge.Relabelled R) (g.edgeOn? id p) (g'.edgeOn? id' p) := by
  rw [edgeOn?, edgeOn?, h.cell?_eq hR hid, h.links]
  cases g'.cell? id' with
  | none => exact .none
  | some i =>
    show Option.Rel _ ((g'.links.select fun l => l.source = i && l.output = p).head?.bind
      fun e : Nat × Link => g.edgeOf? e.2) (Option.bind _ fun e : Nat × Link => g'.edgeOf? e.2)
    cases (g'.links.select fun l => l.source = i && l.output = p).head? with
    | none => exact .none
    | some e => exact h.edgeOf?_rel e.2

theorem outputsOf_alike (h : Relabelled R g g') (hR : Relator.BiUnique R) (hid : R id id') :
    Except.Alike Error.SameKind (List.Forall₂ fun output output' => output.1 = output'.1 ∧
      List.Forall₂ (Edge.Relabelled R) output.2 output'.2) (g.outputsOf id) (g'.outputsOf id') := by
  refine (h.node_alike hR hid).bind ?_
  rintro n _ rfl
  exact .ok (outputs_rel (h.outgoing_rel hR hid))

/-- An edge is added to both graphs, or to none. -/
theorem addEdge (h : Relabelled R g g') (hR : Relator.BiUnique R) {e e' : Edge}
    (he : e.Relabelled R e') :
    Except.Alike Error.SameKind (Relabelled R) (g.addEdge e) (g'.addEdge e') := by
  unfold Graph.addEdge
  rw [h.cell?_eq hR he.source, h.cell?_eq hR he.target]
  cases g'.cell? e'.source with
  | none => exact .error rfl
  | some i =>
    cases g'.cell? e'.target with
    | none => exact .error rfl
    | some j =>
      refine (h.node_alike hR he.source).bind ?_
      rintro source _ rfl
      refine (h.node_alike hR he.target).bind ?_
      rintro target _ rfl
      apply Except.alike_check
      · rw [he.output]
      · rfl
      apply Except.alike_check
      · rw [he.input]
      · rfl
      apply Except.alike_check
      · have hfree := h.edgeOn?_rel hR he.source e.output
        rw [← he.output]
        generalize g.edgeOn? e.source e.output = x, g'.edgeOn? e'.source e.output = x' at hfree
        cases hfree <;> rfl
      · rfl
      exact .ok ⟨h.nodeArena, h.cells, h.owners, by rw [h.links, he.output, he.input], h.metadata⟩

end Relabelled

end Graph

end Workflow
