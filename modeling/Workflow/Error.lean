import Workflow.Document.Start
import Workflow.Graph.Node
import Workflow.Transform.Codec

/-!
# Errors

What can go wrong when a document is imported, a graph is changed, or a graph is compiled. An error
is a cause; `Error.message` words it, with the nodes named by the caller.
-/

namespace Workflow

/-- Why a graph or a document is no workflow. -/
inductive DefinitionFault where
  /-- A state handles errors, but its type has no error output. -/
  | noErrorOutput (state : String)
  /-- An output leads to a node that it cannot lead to. -/
  | wrongTarget (port : Port) (state kind : String) (target : NodeLabel)
  /-- A node stands where a state is expected. -/
  | notState (node : NodeLabel)
  /-- The form of the start node is not the form of a start block. -/
  | start (fault : StartFault)
  deriving DecidableEq, Repr

/-- Why an operation fails. -/
inductive Error where
  /-- A type has no entry in the catalog. -/
  | unregisteredType (name : String)
  /-- A transition names a state that does not exist. -/
  | unresolvedTransition (state target : String)
  /-- An output that takes one edge has one. -/
  | portCapacity (node : NodeId) (port : Port)
  /-- Nodes wait for their forms to be confirmed. -/
  | uninitializedNodes (nodes : List NodeLabel)
  /-- A transform cannot be encoded. -/
  | codec (e : CodecError)
  /-- Two nodes stand for states of the same id. -/
  | duplicateStateId (id : String)
  /-- A node stands for a state without id. -/
  | missingStateId (node : NodeId)
  /-- There is no such node. -/
  | nodeNotFound (node : NodeId)
  /-- A node has no such port. -/
  | portOutOfRange (node : NodeId) (port : Port)
  /-- A connected output stands for no field of the state. -/
  | danglingPort (state : String) (port : Port)
  /-- There is no start node. -/
  | missingStartNode
  /-- The start node leads nowhere. -/
  | missingEntryState
  /-- The structure is not that of a workflow. -/
  | invalidDefinition (fault : DefinitionFault)
  /-- A YAML text cannot be read. -/
  | yaml (c : Complaint)
  /-- JSON data cannot be read. -/
  | json (c : Complaint)
  /-- The walk through a graph was cut short. -/
  | unfinished
  deriving DecidableEq, Repr

namespace DefinitionFault

/-- The message of a fault. -/
def message (nameOf : NodeId → String) : DefinitionFault → String
  | noErrorOutput state =>
    "state " ++ state ++ " has a catch list but its type has no error output"
  | wrongTarget port state kind target =>
    "output " ++ toString port ++ " of state " ++ state ++ " cannot lead to " ++ kind ++
      " node " ++ target.text nameOf
  | notState node => node.text nameOf ++ " is not a state"
  | start fault => fault.message

end DefinitionFault

namespace Error

/-- The message of an error. -/
def message (nameOf : NodeId → String) : Error → String
  | unregisteredType name => "unregistered node type: " ++ name
  | unresolvedTransition state target =>
    "state " ++ state ++ " transitions to unknown state " ++ target
  | portCapacity node port =>
    "output port " ++ toString port ++ " of node " ++ nameOf node ++ " is already connected"
  | uninitializedNodes nodes =>
    "uninitialized nodes: " ++ ", ".intercalate (nodes.map (NodeLabel.text nameOf))
  | codec e => e.message
  | duplicateStateId id => "duplicate state id: " ++ id
  | missingStateId node => "node " ++ nameOf node ++ " has no state id"
  | nodeNotFound node => "node " ++ nameOf node ++ " does not exist"
  | portOutOfRange node port => "node " ++ nameOf node ++ " has no port " ++ toString port
  | danglingPort state port =>
    "output port " ++ toString port ++ " of state " ++ state ++
      " does not map to a transition field"
  | missingStartNode => "workflow graph has no start node"
  | missingEntryState => "start node is not connected to any state"
  | invalidDefinition fault => "invalid workflow definition: " ++ fault.message nameOf
  | yaml c => "yaml error: " ++ c.message Yaml.wording
  | json c => "serialization error: " ++ c.message Json.wording
  | unfinished => "the walk through the graph was cut short"

/-- The name of the kind of an error. -/
def kind : Error → String
  | unregisteredType _ => "UnregisteredType"
  | unresolvedTransition .. => "UnresolvedTransition"
  | portCapacity .. => "PortCapacity"
  | uninitializedNodes _ => "UninitializedNodes"
  | codec _ => "Codec"
  | duplicateStateId _ => "DuplicateStateId"
  | missingStateId _ => "MissingStateId"
  | nodeNotFound _ => "NodeNotFound"
  | portOutOfRange .. => "PortOutOfRange"
  | danglingPort .. => "DanglingPort"
  | missingStartNode => "MissingStartNode"
  | missingEntryState => "MissingEntryState"
  | invalidDefinition _ => "InvalidDefinition"
  | yaml _ => "Yaml"
  | json _ => "Serialization"
  | unfinished => "Unfinished"

end Error

end Workflow
