import Workflow.Document.State
import Workflow.Json.Printer
import Workflow.Snapshot.Basic

/-!
# Writing snapshots

A snapshot is written as JSON text: nodes as a record by identifier, edges as a list. Fields that
say nothing are left out, except the form of a node and the edges.
-/

namespace Workflow

namespace Position

/-- A coordinate; an infinite one is written as null. -/
def coordinate : ExtendedFloat → Json
  | .finite x => .num (.single x)
  | .infinite _ | .nan => .null

/-- A position as a record. -/
def toJson (p : Position) : Json := .obj [("x", coordinate p.x), ("y", coordinate p.y)]

end Position

/-- A word of sixteen bits as a value. -/
def wordJson (n : UInt16) : Json := .num (.int n.toNat)

/-- An identifier as a value. -/
def NodeId.toJson (id : NodeId) : Json := .str id.text

/-- The fields of a node; those that say nothing are left out. -/
def Node.toJson (n : Node) : Json :=
  .obj <|
    [("type", .str n.kind), ("family", .str n.family.name)] ++
    optionalText "business_id" n.stateId ++
    [("form_data", .obj n.form), ("initialized", .bool n.initialized),
      ("inputs", wordJson n.inputs), ("outputs", wordJson n.outputs)] ++
    (if n.fanOut.isEmpty then [] else [("fan_out", .arr (n.fanOut.map wordJson))]) ++
    (n.position.map fun p => ("position", p.toJson)).toList

/-- An edge as a record. -/
def Edge.toJson (e : Edge) : Json :=
  .obj [("from", e.source.toJson), ("from_port", wordJson e.output), ("to", e.target.toJson),
    ("to_port", wordJson e.input)]

/-- The document fields of a graph as a record; those that say nothing are left out. -/
def Metadata.toJson (m : Metadata) : Json :=
  .obj <|
    (m.functions.map fun fs => ("functions", .arr fs)).toList ++
    (if m.extra.isEmpty then [] else [("extra", .obj m.extra)])

namespace Snapshot

/-- A snapshot as a record. -/
def toJson (s : Snapshot) : Json :=
  .obj [("nodes", .obj (s.nodes.entries.map fun e => (e.1.text, e.2.toJson))),
    ("edges", .arr (s.edges.map Edge.toJson)), ("metadata", s.metadata.toJson)]

/-- The JSON text of a snapshot. -/
def jsonText (s : Snapshot) : String := s.toJson.pretty

end Snapshot

end Workflow
