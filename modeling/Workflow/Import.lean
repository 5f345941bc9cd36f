import Workflow.Document.Text
import Workflow.Graph.Basic
import Workflow.Settings
import Workflow.Traced

/-!
# From documents to graphs

`Document.toGraph` makes a start node, a node for each state of a known type, and an error-catch
node for each list of error handlers; then every name of a state becomes an edge. Transitions are
taken out of the forms, so that only the edges tell them. New nodes get their identifiers from a
supply, one after the other.
-/

namespace Workflow

/-- Something that the user of an import or a compilation should know. -/
inductive Warning where
  /-- A state of an unknown type was left out. -/
  | skippedState (id kind : String)
  /-- No entry state is named, and the first state is taken. -/
  | entryFallback (state : String)
  /-- A state that cannot be reached was left out. -/
  | droppedState (node : NodeLabel)
  deriving DecidableEq, Repr

/-- A state that an import left out. -/
structure SkippedState where
  id : String
  kind : String
  deriving DecidableEq, Repr

/-- The result of an import. -/
structure Imported where
  graph : Graph
  /-- The states of unknown types, in order. -/
  skipped : List SkippedState
  deriving DecidableEq, Repr

namespace Import

/-- Error handlers of a state as a node of their own. -/
structure HandlerNode where
  node : NodeId
  targets : List (Port × String)
  deriving DecidableEq, Repr

/-- A node whose edges are still to be drawn. -/
structure Pending where
  state : String
  node : NodeId
  errorPort : Option Port
  targets : List (Port × String)
  handlers : Option HandlerNode
  deriving DecidableEq, Repr

/-- An import under way. -/
structure Draft where
  graph : Graph
  /-- The states that have a node, in order. -/
  pending : List Pending
  skipped : List SkippedState
  deriving DecidableEq, Repr

/-- The first id that an earlier state has too. -/
def repeatedId? (seen : List String) : List State → Option String
  | [] => none
  | s :: rest => if s.id ∈ seen then some s.id else repeatedId? (s.id :: seen) rest

section

variable {T : Type} [NodeSpec T]

/-- A node for the raw fields of the state `id`, together with the names that the fields hold. -/
def nodeOf (kind : String) (t : T) (id : String) (fields : Fields) :
    Except Error (Node × List (Port × String)) :=
  match NodeSpec.toForm t id (NodeSpec.strip t fields) with
  | .ok form => .ok (Node.ofType kind t form, NodeSpec.targets t fields)
  | .error e => .error (.codec e)

/-- Adds a node under the next identifier of the supply, which is that of the number of nodes. -/
def insertNext (supply : Nat → NodeId) (g : Graph) (n : Node) : NodeId × Graph :=
  let id := supply g.nodeCount
  (id, g.insert id n)

/-- Adds the node of the start block; gives its identifier and the name of the entry state. -/
def addStart (c : Catalog T) (supply : Nat → NodeId) (g : Graph) (start : Option Start) :
    Except Error (NodeId × Option String × Graph) := do
  let fields := (start.map fun s => Fields.ofEntries s.entries).getD []
  let t ← c.lookup NodeType.startName
  let (node, targets) ← nodeOf NodeType.startName t NodeType.startName fields
  let (id, g) := insertNext supply g { node with initialized := true }
  return (id, targets.head?.map Prod.snd, g)

/-- Adds the node of the error handlers of the state `owner`. -/
def addHandlers (c : Catalog T) (supply : Nat → NodeId) (g : Graph) (owner : String)
    (handlers : List CatchEntry) : Except Error (HandlerNode × Graph) := do
  let fields : Fields := [("catch", (Json.arr (handlers.map CatchEntry.toJson)).merged)]
  let t ← c.lookup NodeType.catchName
  let (node, targets) ← nodeOf NodeType.catchName t owner fields
  let outputs := NodeSpec.outputCount t fields (NodeSpec.outputs t)
  let (id, g) := insertNext supply g { node with outputs }
  return (⟨id, targets⟩, g)

/-- Adds the node of a state of type `t`, and that of its error handlers. -/
def addState (c : Catalog T) (supply : Nat → NodeId) (t : T) (d : Draft) (s : State) :
    Except Error Draft := do
  let (node, targets) ← nodeOf s.kind t s.id s.fields
  let outputs := NodeSpec.outputCount t s.fields (NodeSpec.outputs t)
  let (id, g) :=
    insertNext supply d.graph { node with stateId := some s.id, outputs, initialized := true }
  let (handlers, g) ← match s.handlers with
    | some hs => do
      let (h, g) ← addHandlers c supply g s.id hs
      pure (some h, g)
    | none => pure (none, g)
  return { d with
    graph := g
    pending := d.pending ++ [⟨s.id, id, NodeSpec.errorPort? t, targets, handlers⟩] }

/-- Adds a state, or leaves it out when its type is unknown. -/
def takeState (settings : Settings) (c : Catalog T) (supply : Nat → NodeId) (d : Draft)
    (s : State) : Traced Warning Error Draft :=
  match c.get? s.kind with
  | some t => addState c supply t d s
  | none =>
    if settings.skipUnregistered then do
      Traced.note [.skippedState s.id s.kind]
      return { d with skipped := d.skipped ++ [⟨s.id, s.kind⟩] }
    else .fail (.unregisteredType s.kind)

end

/-- The node of a state that `owner` names. -/
def resolve (pending : List Pending) (owner name : String) : Except Error NodeId :=
  match pending.find? (·.state = name) with
  | some p => .ok p.node
  | none => .error (.unresolvedTransition owner name)

/-- Draws an edge for each name, from the outputs of `source`. -/
def drawEdges (pending : List Pending) (owner : String) (source : NodeId) (g : Graph)
    (targets : List (Port × String)) : Except Error Graph :=
  targets.foldlM (fun g (port, name) => do
    g.addEdge (.ofOutput source port (← resolve pending owner name))) g

/-- Draws the edges of a state: first to its error handlers and from them, then its own. -/
def wire (pending : List Pending) (g : Graph) (p : Pending) : Except Error Graph := do
  let g ← match p.handlers, p.errorPort with
    | none, _ => pure g
    | some _, none => throw (.invalidDefinition (.noErrorOutput p.state))
    | some h, some port => do
      let g ← g.addEdge (.ofOutput p.node port h.node)
      drawEdges pending p.state h.node g h.targets
  drawEdges pending p.state p.node g p.targets

/-- The node of the entry state. -/
def entryNode (settings : Settings) (pending : List Pending) :
    Option String → Traced Warning Error (Option NodeId)
  | some name => some <$> (resolve pending NodeType.startName name : Except Error NodeId)
  | none =>
    match pending with
    | [] => pure none
    | p :: _ =>
      if settings.entryFallback then do
        Traced.note [.entryFallback p.state]
        return some p.node
      else pure none

end Import

open Import in
/-- The graph of a document. -/
def Document.toGraph {T : Type} [NodeSpec T] (settings : Settings) (c : Catalog T)
    (supply : Nat → NodeId) (d : Document) : Traced Warning Error Imported := do
  if let some id := repeatedId? [] d.states then Traced.fail (.duplicateStateId id)
  let (start, entry, g) ← addStart c supply (.empty ⟨d.functions, d.extra⟩) d.start
  let draft ← d.states.foldlM (takeState settings c supply) ⟨g, [], []⟩
  let g ← match ← entryNode settings draft.pending entry with
    | some entry => liftM (draft.graph.addEdge (.ofOutput start 1 entry))
    | none => pure draft.graph
  let g ← (draft.pending.foldlM (wire draft.pending) g : Except Error Graph)
  return ⟨g, draft.skipped⟩

end Workflow
