import Workflow.Arena
import Workflow.Error

/-!
# Workflow graphs

A graph keeps its nodes and its edges in arenas, so that a freed place is filled again by the next
node or edge. Two tables take identifiers to cells and cells to identifiers. Nodes are listed by
place; the edges of a node are listed in the order in which they
were added. `Graph.addEdge` sees to it that both ends of an edge exist and that an output which
takes one edge has no other.
-/

namespace Workflow

/-- The type with a given name, which must be in the catalog. -/
def Catalog.lookup {T : Type} (c : Catalog T) (name : String) : Except Error T :=
  match c.get? name with
  | some t => .ok t
  | none => .error (.unregisteredType name)

/-- An edge between two cells of the arena of nodes. -/
structure Link where
  source : Nat
  output : Port
  target : Nat
  input : Port
  deriving DecidableEq, Repr

/-- A workflow graph. -/
structure Graph where
  nodeArena : Arena Node
  /-- The cells that identifiers stand for. -/
  cells : List (NodeId × Nat)
  /-- The identifiers of the nodes in the cells. -/
  owners : List (Nat × NodeId)
  links : Arena Link
  /-- The document fields that are neither node nor edge. -/
  metadata : Metadata
  deriving DecidableEq, Repr

namespace Graph

/-- The graph without nodes. -/
def empty (metadata : Metadata) : Graph := ⟨.empty, [], [], .empty, metadata⟩

/-! ### Nodes -/

/-- The cell that an identifier stands for. -/
def cell? (g : Graph) (id : NodeId) : Option Nat := (g.cells.find? (·.1 = id)).map Prod.snd

/-- The identifier of the node in a cell. -/
def owner? (g : Graph) (i : Nat) : Option NodeId := (g.owners.find? (·.1 = i)).map Prod.snd

/-- The node with an identifier. -/
def node? (g : Graph) (id : NodeId) : Option Node := do g.nodeArena.get? (← g.cell? id)

/-- The node with an identifier, which must exist. -/
def node (g : Graph) (id : NodeId) : Except Error Node :=
  match g.node? id with
  | some n => .ok n
  | none => .error (.nodeNotFound id)

/-- Whether there is a node with an identifier. -/
def contains (g : Graph) (id : NodeId) : Bool := (g.cell? id).isSome

/-- The nodes with their identifiers, in the order of their cells. -/
def nodes (g : Graph) : List (NodeId × Node) :=
  g.nodeArena.listed.filterMap fun e => (g.owner? e.1).map (·, e.2)

/-- The identifiers of the nodes, in the order of their cells. -/
def ids (g : Graph) : List NodeId := g.nodes.map Prod.fst

/-- The number of nodes. -/
def nodeCount (g : Graph) : Nat := g.nodeArena.size

/-- The number of edges. -/
def edgeCount (g : Graph) : Nat := g.links.size

/-- Whether there are no nodes. -/
def isEmpty (g : Graph) : Bool := g.nodeCount = 0

/-- Adds a node. -/
def insert (g : Graph) (id : NodeId) (n : Node) : Graph :=
  let i := g.nodeArena.nextCell
  { g with
    nodeArena := g.nodeArena.insert n
    cells := (id, i) :: g.cells.filter (·.1 ≠ id)
    owners := (i, id) :: g.owners.filter (·.1 ≠ i) }

/-- Adds a new node of a type in the catalog. -/
def add {T : Type} [NodeSpec T] (g : Graph) (c : Catalog T) (id : NodeId) (kind : String)
    (form : Fields) : Except Error Graph :=
  return g.insert id (.ofType kind (← c.lookup kind) form)

/-- Changes a node. -/
def modify (g : Graph) (id : NodeId) (f : Node → Node) : Graph :=
  match g.cell? id with
  | some i => { g with nodeArena := g.nodeArena.modify i f }
  | none => g

/-- The first start node. -/
def startNode? (g : Graph) : Option NodeId := (g.nodes.find? (·.2.isStart)).map Prod.fst

/-- The first node that stands for the state with a given id. -/
def findState? (g : Graph) (name : String) : Option NodeId :=
  (g.nodes.find? fun e => e.2.isPrimitive && e.2.stateId = some name).map Prod.fst

/-- Gives the state of a node another id. Transitions follow, since they are edges. -/
def rename (g : Graph) (id : NodeId) (name : String) : Except Error Graph :=
  if (g.findState? name).any (· ≠ id) then .error (.duplicateStateId name)
  else if g.contains id then .ok (g.modify id fun n => { n with stateId := some name })
  else .error (.nodeNotFound id)

/-! ### Edges -/

/-- The edge that a link stands for. -/
def edgeOf? (g : Graph) (l : Link) : Option Edge := do
  let source ← g.owner? l.source
  let target ← g.owner? l.target
  return ⟨source, l.output, target, l.input⟩

/-- The edges, in the order of their cells. -/
def edges (g : Graph) : List Edge := g.links.toList.filterMap g.edgeOf?

/-- The edges that leave a node, oldest first. -/
def outgoing (g : Graph) (id : NodeId) : List Edge :=
  match g.cell? id with
  | some i => (g.links.select (·.source = i)).filterMap fun e => g.edgeOf? e.2
  | none => []

/-- The edges that arrive at a node, oldest first. -/
def incoming (g : Graph) (id : NodeId) : List Edge :=
  match g.cell? id with
  | some i => (g.links.select (·.target = i)).filterMap fun e => g.edgeOf? e.2
  | none => []

/-- The first edge that leaves a port of a node. -/
def edgeOn? (g : Graph) (id : NodeId) (p : Port) : Option Edge := do
  let i ← g.cell? id
  let (_, l) ← (g.links.select fun l => l.source = i && l.output = p).head?
  g.edgeOf? l

/-- Whether there is such an edge. -/
def containsEdge (g : Graph) (e : Edge) : Bool := (g.outgoing e.source).contains e

/-- Adds an edge. -/
def addEdge (g : Graph) (e : Edge) : Except Error Graph := do
  let some i := g.cell? e.source | throw (.nodeNotFound e.source)
  let some j := g.cell? e.target | throw (.nodeNotFound e.target)
  let source ← g.node e.source
  let target ← g.node e.target
  if !e.output.isWithin source.outputs then throw (.portOutOfRange e.source e.output)
  if !e.input.isWithin target.inputs then throw (.portOutOfRange e.target e.input)
  if !source.allowsFanOut e.output && (g.edgeOn? e.source e.output).isSome then
    throw (.portCapacity e.source e.output)
  return { g with links := g.links.insert ⟨i, e.output, j, e.input⟩ }

/-- Removes the link in a cell. -/
def eraseLink (g : Graph) (i : Nat) : Graph := { g with links := g.links.erase i }

/-- The cell of the newest link for an edge. -/
def linkOf? (g : Graph) (e : Edge) : Option Nat := do
  let i ← g.cell? e.source
  let j ← g.cell? e.target
  return (← (g.links.select (· = ⟨i, e.output, j, e.input⟩)).getLast?).1

/-- Removes the newest of the edges equal to `e`; nothing when there is none. -/
def eraseEdge? (g : Graph) (e : Edge) : Option Graph := (g.linkOf? e).map g.eraseLink

/-- Removes the links that satisfy `p`, newest first. -/
def eraseLinksWhere (g : Graph) (p : Link → Bool) : Graph :=
  (g.links.select p).foldr (fun e g => g.eraseLink e.1) g

/-- Removes a node with its edges: first those that leave it, then those that arrive at it. -/
def erase (g : Graph) (id : NodeId) : Graph :=
  match g.cell? id with
  | none => g
  | some i =>
    let g := (g.eraseLinksWhere (·.source = i)).eraseLinksWhere (·.target = i)
    { g with
      nodeArena := g.nodeArena.erase i
      cells := g.cells.filter (·.1 ≠ id)
      owners := g.owners.filter (·.1 ≠ i) }

/-! ### Ports -/

/-- Puts a port into a sorted list, unless it is there. -/
def insertPort (p : Port) : List Port → List Port
  | [] => [p]
  | q :: rest =>
    if p < q then p :: q :: rest else if p = q then q :: rest else q :: insertPort p rest

/-- Edges by port: those of the ports of a node, and any others, in port order. -/
def byPort (count : PortCount) (portOf : Edge → Port) (es : List Edge) :
    List (Port × List Edge) :=
  let ports := es.foldl (fun ps e => insertPort (portOf e) ps) (Port.all count)
  ports.map fun p => (p, es.filter (portOf · = p))

/-- The outputs of a node with the edges that leave them. -/
def outputsOf (g : Graph) (id : NodeId) : Except Error (List (Port × List Edge)) :=
  return byPort (← g.node id).outputs Edge.output (g.outgoing id)

/-- The inputs of a node with the edges that arrive at them. -/
def inputsOf (g : Graph) (id : NodeId) : Except Error (List (Port × List Edge)) :=
  return byPort (← g.node id).inputs Edge.input (g.incoming id)

/-- Changes the number of outputs of a node: the graph after that, and the edges that lost their
output or an error. -/
def resizeOutputs (g : Graph) (id : NodeId) (count : PortCount) :
    Graph × Except Error (List Edge) :=
  let dropped := (g.outgoing id).filter fun e => !e.output.isWithin count
  let g := dropped.foldl (fun g e => (g.eraseEdge? e).getD g) g
  if g.contains id then (g.modify id fun n => { n with outputs := count }, .ok dropped)
  else (g, .error (.nodeNotFound id))

end Graph

end Workflow
