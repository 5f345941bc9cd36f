import Workflow.Import
import Workflow.Walk

/-!
# From graphs to documents

`Graph.compile` turns a graph into a document. The states that can be reached from the entry state
come first, each before the states that it leads to where that is possible; the states that nothing
leads to follow with theirs. Every transition is written from an edge, whatever the forms hold.
-/

namespace Workflow

namespace Compile

/-- The name of the state that a node stands for. -/
def stateName (g : Graph) (id : NodeId) : Except Error String := do
  let n ← g.node id
  if !n.isPrimitive then throw (.invalidDefinition (.notState (n.label id)))
  match n.stateId with
  | some name => return name
  | none => throw (.missingStateId id)

/-- Reads the list of error handlers that a form holds. -/
def readHandlers (form : Fields) : Except Error (List CatchEntry) :=
  match form.get? "catch" with
  | none | some .null => .ok []
  | some v =>
    match Json.readValue (Record.list CatchEntry.read) v with
    | .ok hs => .ok hs
    | .error c => .error (.json c)

section

variable {T : Type} [NodeSpec T]

/-- The fields for a form, with the transforms encoded. -/
def fieldsOfForm (t : T) (id : String) (form : Fields) : Except Error Fields :=
  match NodeSpec.ofForm t id form with
  | .ok fields => .ok fields
  | .error e => .error (.codec e)

/-- Writes the name that an output of an error-catch node leads to. -/
def connectHandler (g : Graph) (t : T) (owner : String) (form : Fields)
    (output : Port × List Edge) : Traced NodeId Error Fields := do
  match output.2 with
  | [] => return form
  | e :: _ =>
    let name ← stateName g e.target
    match (NodeSpec.slot? t output.1).bind (·.write form name) with
    | none => .fail (.danglingPort owner output.1)
    | some form => do
      Traced.note (output.2.map Edge.target)
      return form

/-- The error handlers that an error-catch node holds for the state `owner`. -/
def handlersOf (c : Catalog T) (g : Graph) (id : NodeId) (owner : String) :
    Traced NodeId Error (List CatchEntry) := do
  let n ← g.node id
  let t ← c.lookup n.kind
  let outputs ← g.outputsOf id
  let form ← outputs.foldlM (connectHandler g t owner) (NodeSpec.strip t n.form)
  let fields ← fieldsOfForm t owner form
  readHandlers fields

/-- Writes what an output of a state leads to: into the fields, or as the error handlers. -/
def connectOutput (c : Catalog T) (g : Graph) (t : T) (name : String)
    (acc : Fields × Option (List CatchEntry)) (output : Port × List Edge) :
    Traced NodeId Error (Fields × Option (List CatchEntry)) := do
  match output.2 with
  | [] => return acc
  | e :: _ =>
    let target ← g.node e.target
    let wrong : Error :=
      .invalidDefinition (.wrongTarget output.1 name target.kind (target.label e.target))
    match NodeSpec.slot? t output.1 with
    | none => .fail (.danglingPort name output.1)
    | some .error =>
      if target.isCatch then do
        let hs ← handlersOf c g e.target name
        return (acc.1, some hs)
      else .fail wrong
    | some slot =>
      if target.isPrimitive then do
        let next ← stateName g e.target
        match slot.write acc.1 next with
        | none => .fail (.danglingPort name output.1)
        | some fields => do
          Traced.note (output.2.map Edge.target)
          return (fields, acc.2)
      else .fail wrong

/-- The state that a node stands for; its marks are the nodes of the states that follow. -/
def expand (c : Catalog T) (g : Graph) (id : NodeId) : Traced NodeId Error State := do
  let n ← g.node id
  let name ← stateName g id
  let t ← c.lookup n.kind
  let outputs ← g.outputsOf id
  let (fields, handlers) ←
    outputs.foldlM (connectOutput c g t name) (NodeSpec.strip t n.form, none)
  let fields ← fieldsOfForm t name fields
  return ⟨name, n.kind, fields, handlers.filter fun hs => !hs.isEmpty⟩

/-- Checks the types and the names of nodes; no name may be among those of `seen`. -/
def checkNames (c : Catalog T) (seen : List String) : List (NodeId × Node) → Except Error Unit
  | [] => .ok ()
  | (id, n) :: rest => do
    let _ ← c.lookup n.kind
    if !n.isPrimitive then checkNames c seen rest
    else match n.stateId with
      | none => .error (.missingStateId id)
      | some name =>
        if name ∈ seen then .error (.duplicateStateId name) else checkNames c (name :: seen) rest

/-- Checks every node of a graph: its form is confirmed, its type is known, its name is its own. -/
def validate (c : Catalog T) (g : Graph) : Except Error Unit :=
  match (g.nodes.filter fun e => !e.2.initialized).map fun e => e.2.label e.1 with
  | [] => checkNames c [] g.nodes
  | nodes => .error (.uninitializedNodes nodes)

/-- The start block for a start node and an entry state. -/
def startOf (c : Catalog T) (g : Graph) (start entry : NodeId) : Except Error Start := do
  let n ← g.node start
  let name ← stateName g entry
  let t ← c.lookup n.kind
  let form ← fieldsOfForm t NodeType.startName (NodeSpec.strip t n.form)
  match Start.ofForm form name with
  | .ok s => return s
  | .error fault => throw (.invalidDefinition (.start fault))

/-- Visits a state and those that follow. -/
def visit (c : Catalog T) (g : Graph) (w : Walk NodeId State) (id : NodeId) :
    Except Error (Walk NodeId State) :=
  Walk.visit (expand c g) .unfinished (g.nodeCount + 1) w id

/-- Visits a state that nothing leads to, unless it was visited. -/
def visitRoot (c : Catalog T) (g : Graph) (w : Walk NodeId State) (e : NodeId × Node) :
    Except Error (Walk NodeId State) :=
  if e.2.isPrimitive && e.1 ∉ w.visited && (g.incoming e.1).isEmpty then visit c g w e.1
  else .ok w

/-- The states of a graph, in the order of the document, and the nodes that were visited. -/
def statesOf (c : Catalog T) (g : Graph) (entry : NodeId) : Except Error (Walk NodeId State) := do
  let w ← visit c g .start entry
  g.nodes.foldlM (visitRoot c g) { w with finished := w.finished.reverse }

end

/-- The states that were not visited. -/
def dropped (g : Graph) (visited : List NodeId) : List Warning :=
  (g.nodes.filter fun e => e.2.isPrimitive && e.1 ∉ visited).map fun e =>
    .droppedState (e.2.label e.1)

end Compile

variable {T : Type} [NodeSpec T]

open Compile in
/-- The document of a graph. -/
def Graph.compile (c : Catalog T) (g : Graph) : Traced Warning Error Document := do
  validate c g
  let some start := g.startNode? | .fail .missingStartNode
  let some edge := g.edgeOn? start 1 | .fail .missingEntryState
  let block ← startOf c g start edge.target
  let w ← statesOf c g edge.target
  Traced.note (dropped g w.visited)
  return ⟨g.metadata.extra, g.metadata.functions, some block, w.finished⟩

/-- The YAML text of the document of a graph. -/
def Graph.compileText (settings : Settings) (c : Catalog T) (g : Graph) :
    Traced Warning Error String := do
  return (← g.compile c).yamlText settings.scriptIndent

end Workflow
