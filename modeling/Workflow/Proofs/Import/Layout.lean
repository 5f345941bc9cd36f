import Workflow.Import

/-!
# The graph that a document describes

A document tells where every node of its graph stands: the start node first, then for each state of
a known type its node and, if it has error handlers, theirs (`layout`). Names become edges between
these places (`entryEdges`, `Place.edges`).
-/

namespace Workflow.Import

/-- A state that has a node, the type of the node and its position. -/
structure Place where
  state : State
  type : NodeType
  index : Nat
  deriving DecidableEq, Repr

/-- The number of nodes of a state: one, and one for its error handlers. -/
def Place.size (p : Place) : Nat := if p.state.handlers.isSome then 2 else 1

/-- The places of states whose first node has a given position. States of unknown types have no
place. -/
def layout (c : Catalog) : (index : Nat) → List State → List Place
  | _, [] => []
  | index, s :: rest =>
    match c.get? s.kind with
    | some t =>
      let p : Place := ⟨s, t, index⟩
      p :: layout c (index + p.size) rest
    | none => layout c index rest

/-- The places of the states of a document, behind the start node. -/
def places (c : Catalog) (d : Document) : List Place := layout c 1 d.states

/-! ### Nodes -/

/-- The type of start nodes. -/
def startType : NodeType := .special 0 1 .entry

/-- The type of error-catch nodes. -/
def catchType : NodeType := .special 1 1 .handlers

/-- The fields of the start block of a document. -/
def startFields (d : Document) : Fields := (d.start.map fun s => Fields.ofEntries s.entries).getD []

/-- The fields of an error-catch node. -/
def handlerFields (hs : List CatchEntry) : Fields :=
  [("catch", (Json.arr (hs.map CatchEntry.toJson)).merged)]

/-- The node for raw fields, of which a form can always be made. -/
def rawNode (kind : String) (t : NodeType) (fields : Fields) : Node :=
  .ofType kind t (t.form.toForm (t.transitions.strip fields))

theorem nodeOf_eq (kind : String) (t : NodeType) (id : String) (fields : Fields) :
    nodeOf kind t id fields = .ok (rawNode kind t fields, t.transitions.targets fields) := rfl

/-- The start node of a document. -/
def startNode (d : Document) : Node :=
  { rawNode NodeType.startName startType (startFields d) with initialized := true }

/-- The node of a list of error handlers. -/
def catchNode (hs : List CatchEntry) : Node :=
  { rawNode NodeType.catchName catchType (handlerFields hs) with
    outputs := catchType.transitions.outputCount (handlerFields hs) catchType.outputs }

namespace Place

variable (supply : Nat → NodeId) (p : Place)

/-- The node of the state. -/
def node : Node :=
  { rawNode p.state.kind p.type p.state.fields with
    stateId := some p.state.id
    outputs := p.type.transitions.outputCount p.state.fields p.type.outputs
    initialized := true }

/-- The identifier of the node of the state. -/
def id : NodeId := supply p.index

/-- The identifier of the node of the error handlers. -/
def catchId : NodeId := supply (p.index + 1)

/-- The nodes of the state: its own, then that of its error handlers. -/
def nodes : List (NodeId × Node) :=
  (p.id supply, p.node) ::
    match p.state.handlers with
    | some hs => [(p.catchId supply, catchNode hs)]
    | none => []

end Place

/-- The nodes of a document. -/
def nodesOf (c : Catalog) (supply : Nat → NodeId) (d : Document) : List (NodeId × Node) :=
  (supply 0, startNode d) :: (places c d).flatMap (Place.nodes supply)

/-! ### Edges -/

/-- The node of the state with a given id. -/
def nodeNamed? (supply : Nat → NodeId) (ps : List Place) (name : String) : Option NodeId :=
  (ps.find? (·.state.id = name)).map (Place.id supply)

/-- The edges from the outputs of a node to the states that they name; nothing stands for an edge to
a state that does not exist. -/
def edgesTo (supply : Nat → NodeId) (ps : List Place) (source : NodeId)
    (targets : List (Port × String)) : List (Option Edge) :=
  targets.map fun (port, name) => (nodeNamed? supply ps name).map (Edge.ofOutput source port)

/-- The edges of a state: to its error handlers and from them, then its own. -/
def Place.edges (supply : Nat → NodeId) (ps : List Place) (p : Place) : List (Option Edge) :=
  (match p.state.handlers with
    | some hs =>
      p.type.transitions.errorPort?.map (Edge.ofOutput (p.id supply) · (p.catchId supply)) ::
        edgesTo supply ps (p.catchId supply) (catchType.transitions.targets (handlerFields hs))
    | none => []) ++
  edgesTo supply ps (p.id supply) (p.type.transitions.targets p.state.fields)

/-- The edge to the entry state: the one that the start block names or, if the settings say so, the
first one. -/
def entryEdges (settings : Settings) (supply : Nat → NodeId) (ps : List Place)
    (entry : Option String) : List (Option Edge) :=
  match entry, ps with
  | some name, ps => edgesTo supply ps (supply 0) [(1, name)]
  | none, p :: _ =>
    if settings.entryFallback then [some (.ofOutput (supply 0) 1 (p.id supply))] else []
  | none, [] => []

/-- The name of the entry state of a document. -/
def entryName? (d : Document) : Option String := d.start.bind Start.state

/-- The edges of a document. -/
def edgesOf (settings : Settings) (c : Catalog) (supply : Nat → NodeId) (d : Document) :
    List (Option Edge) :=
  entryEdges settings supply (places c d) (entryName? d) ++
    (places c d).flatMap (Place.edges supply (places c d))

end Workflow.Import
