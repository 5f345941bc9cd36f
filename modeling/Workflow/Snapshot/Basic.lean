import Workflow.Graph.Basic

/-!
# Snapshots

A snapshot is the stored form of a graph: its nodes by identifier, its edges, and the document
fields that are neither. `Graph.snapshot` takes one; `Snapshot.toGraph` builds a graph again, edge
by edge, and so refuses edges that no graph can hold.
-/

namespace Workflow

/-- Nodes by identifier, in ascending order. -/
structure NodeTable where
  entries : List (NodeId × Node)
  sorted : entries.Pairwise fun a b => a.1.bits < b.1.bits
  deriving DecidableEq

namespace NodeTable

/-- The table without nodes. -/
def empty : NodeTable := ⟨[], .nil⟩

/-- Puts a node into a list of entries, before those with greater identifiers and in place of one
with the same. -/
def insertInto (id : NodeId) (n : Node) : List (NodeId × Node) → List (NodeId × Node)
  | [] => [(id, n)]
  | e :: rest =>
    if id.bits < e.1.bits then (id, n) :: e :: rest
    else if e.1.bits < id.bits then e :: insertInto id n rest
    else (id, n) :: rest

theorem mem_insertInto {id : NodeId} {n : Node} {es : List (NodeId × Node)}
    {e : NodeId × Node} (h : e ∈ insertInto id n es) : e.1 = id ∨ e ∈ es := by
  induction es with
  | nil => simp_all [insertInto]
  | cons f rest ih =>
    rw [insertInto] at h
    split at h
    · grind
    · split at h <;> grind

theorem sorted_insertInto (id : NodeId) (n : Node) {es : List (NodeId × Node)}
    (h : es.Pairwise fun a b => a.1.bits < b.1.bits) :
    (insertInto id n es).Pairwise fun a b => a.1.bits < b.1.bits := by
  induction h with
  | nil => simp [insertInto]
  | @cons f rest hf hrest ih =>
    rw [insertInto]
    split
    next hlt =>
      refine .cons (fun e he => ?_) (.cons hf hrest)
      rcases List.mem_cons.1 he with rfl | he
      · exact hlt
      · exact BitVec.lt_trans hlt (hf e he)
    next hge =>
      split
      next hgt =>
        refine .cons (fun e he => ?_) ih
        rcases mem_insertInto he with h | he
        · rw [h]; exact hgt
        · exact hf e he
      next hle =>
        have heq : f.1.bits = id.bits :=
          BitVec.le_antisymm (BitVec.not_lt.1 hge) (BitVec.not_lt.1 hle)
        exact .cons (fun e he => heq ▸ hf e he) hrest

/-- Puts a node into a table, in place of one with the same identifier. -/
def insert (t : NodeTable) (id : NodeId) (n : Node) : NodeTable :=
  ⟨insertInto id n t.entries, sorted_insertInto id n t.sorted⟩

/-- The table of a list of nodes; of two with the same identifier the later one counts. -/
def ofList (nodes : List (NodeId × Node)) : NodeTable :=
  nodes.foldl (fun t e => t.insert e.1 e.2) empty

end NodeTable

/-- The stored form of a graph. -/
structure Snapshot where
  nodes : NodeTable
  edges : List Edge
  metadata : Metadata
  deriving DecidableEq

/-- The snapshot of a graph. -/
def Graph.snapshot (g : Graph) : Snapshot := ⟨.ofList g.nodes, g.edges, g.metadata⟩

/-- The graph of a snapshot. -/
def Snapshot.toGraph (s : Snapshot) : Except Error Graph :=
  s.edges.foldlM Graph.addEdge <|
    s.nodes.entries.foldl (fun g e => g.insert e.1 e.2) (.empty s.metadata)

end Workflow
