import Workflow.NodeId
import Workflow.NodeType.Catalog
import Workflow.Number.Rounding

/-!
# Nodes and edges

The parts of a workflow graph: nodes with the form of a state, and edges from an output port of one
node to an input port of another.
-/

namespace Workflow

/-- Where a node is drawn. -/
structure Position where
  x : ExtendedFloat
  y : ExtendedFloat
  deriving DecidableEq, Repr

/-- A node of a workflow graph. -/
structure Node where
  /-- The name of the type. -/
  kind : String
  family : Family
  /-- The id of the state that the node stands for. -/
  stateId : Option String
  form : Fields
  /-- Whether the form has been confirmed. -/
  initialized : Bool
  inputs : PortCount
  outputs : PortCount
  /-- The outputs that take more than one edge. -/
  fanOut : List Port
  position : Option Position
  deriving DecidableEq, Repr

/-- How a message names a node. -/
inductive NodeLabel where
  /-- By the id of its state. -/
  | state (id : String)
  /-- By its type and identifier. -/
  | anonymous (kind : String) (id : NodeId)
  deriving DecidableEq, Repr

/-- The text of a label; `nameOf` names the nodes. -/
def NodeLabel.text (nameOf : NodeId → String) : NodeLabel → String
  | state id => id
  | anonymous kind id => kind ++ ":" ++ nameOf id

namespace Node

/-- A new node of a type, with the given form. -/
def ofType {T : Type} [NodeSpec T] (kind : String) (t : T) (form : Fields) : Node where
  kind := kind
  family := NodeSpec.family t
  stateId := none
  form := form
  initialized := !NodeSpec.requiresInit t
  inputs := NodeSpec.inputs t
  outputs := NodeSpec.outputs t
  fanOut := NodeSpec.fanOut t
  position := none

/-- Whether the node stands for a state. -/
def isPrimitive (n : Node) : Bool := n.family = .primitive

/-- Whether the node is a start node. -/
def isStart (n : Node) : Bool := n.family = .special && n.kind = NodeType.startName

/-- Whether the node is an error-catch node. -/
def isCatch (n : Node) : Bool := n.family = .special && n.kind = NodeType.catchName

/-- Whether an output takes more than one edge. -/
def allowsFanOut (n : Node) (p : Port) : Bool := n.fanOut.contains p

/-- How a message names the node with the identifier `id`. -/
def label (n : Node) (id : NodeId) : NodeLabel :=
  match n.stateId with
  | some name => .state name
  | none => .anonymous n.kind id

end Node

/-- An edge of a workflow graph. -/
structure Edge where
  source : NodeId
  /-- The output port of the source. -/
  output : Port
  target : NodeId
  /-- The input port of the target. -/
  input : Port
  deriving DecidableEq, Repr

/-- Why an edge cannot be built. -/
inductive EdgeFault where
  | noSource
  | noTarget
  deriving DecidableEq, Repr

/-- The message of a fault. -/
def EdgeFault.message : EdgeFault → String
  | noSource => "from is required"
  | noTarget => "to is required"

namespace Edge

/-- The edge from an output to the first input of another node. -/
def ofOutput (source : NodeId) (output : Port) (target : NodeId) : Edge :=
  ⟨source, output, target, 1⟩

/-- An edge from its parts; a port that is not given is the first one. -/
def build (source target : Option NodeId) (output input : Option Port) : Except EdgeFault Edge :=
  match source, target with
  | none, _ => .error .noSource
  | _, none => .error .noTarget
  | some source, some target => .ok ⟨source, output.getD 1, target, input.getD 1⟩

end Edge

/-- The fields of a document that are neither node nor edge. -/
structure Metadata where
  functions : Option (List Json)
  extra : Fields
  deriving DecidableEq, Repr

/-- No fields. -/
def Metadata.empty : Metadata := ⟨none, []⟩

end Workflow
