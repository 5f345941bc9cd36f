import Workflow.Json.FixedRecord
import Workflow.Snapshot.Basic

/-!
# Reading snapshots

The records of a snapshot are fixed records. Edges and document fields may be left out; identifiers
are read in every spelling, ports as words of sixteen bits.
-/

namespace Workflow

open Json (FixedRecord Part)

namespace Position

/-- A position while it is being read. -/
structure Partial where
  x : Option ExtendedFloat
  y : Option ExtendedFloat

/-- The fields of a position. -/
def record : FixedRecord := ⟨"struct Position", ["x", "y"]⟩

/-- Reads a position. -/
def read (whole : Part) : Except Complaint Position :=
  record.read
    (fun (q : Partial) key p => match key with
      | "x" => do let x ← Record.once whole key q.x p.single; return { q with x }
      | _ => do let y ← Record.once whole key q.y p.single; return { q with y })
    ⟨none, none⟩
    (fun missing q => do
      let x ← FixedRecord.need missing "x" q.x
      let y ← FixedRecord.need missing "y" q.y
      return ⟨x, y⟩)
    whole

end Position

/-- Reads an identifier. -/
def NodeId.read (p : Part) : Except Complaint NodeId := do
  match ofText? (← p.stringAs "a formatted UUID string") with
  | some id => return id
  | none => throw (Json.fault .badIdentifier)

/-- Reads a family by its name. -/
def Family.read (p : Part) : Except Complaint Family := do
  let name ← p.variantOf (Family.all.map Family.name)
  return (Family.ofName? name).getD .special

namespace Node

/-- A node while it is being read. -/
structure Partial where
  kind : Option String := none
  family : Option Family := none
  stateId : Option (Option String) := none
  form : Option Fields := none
  initialized : Option Bool := none
  inputs : Option PortCount := none
  outputs : Option PortCount := none
  fanOut : Option (List Port) := none
  position : Option (Option Position) := none

/-- The fields of a node. -/
def record : FixedRecord :=
  ⟨"struct Node", ["type", "family", "business_id", "form_data", "initialized", "inputs", "outputs",
    "fan_out", "position"]⟩

/-- Reads one field of a node. -/
def Partial.step (whole : Part) (q : Partial) (key : String) (p : Part) :
    Except Complaint Partial :=
  match key with
  | "type" => do
    let kind ← Record.once whole key q.kind (p.stringAs "a string")
    return { q with kind }
  | "family" => do
    let family ← Record.once whole key q.family (Family.read p)
    return { q with family }
  | "business_id" => do
    let stateId ← Record.once whole key q.stateId (Record.optional Source.string p)
    return { q with stateId }
  | "form_data" => do
    let form ← Record.once whole key q.form p.fields
    return { q with form }
  | "initialized" => do
    let initialized ← Record.once whole key q.initialized p.flag
    return { q with initialized }
  | "inputs" => do
    let inputs ← Record.once whole key q.inputs p.word
    return { q with inputs }
  | "outputs" => do
    let outputs ← Record.once whole key q.outputs p.word
    return { q with outputs }
  | "fan_out" => do
    let fanOut ← Record.once whole key q.fanOut (Record.list Part.word p)
    return { q with fanOut }
  | _ => do
    let position ← Record.once whole key q.position (Record.optional Position.read p)
    return { q with position }

/-- The node of the fields that were read. -/
def Partial.finish (missing : String → Complaint) (q : Partial) : Except Complaint Node := do
  let kind ← FixedRecord.need missing "type" q.kind
  let family ← FixedRecord.need missing "family" q.family
  let initialized ← FixedRecord.need missing "initialized" q.initialized
  let inputs ← FixedRecord.need missing "inputs" q.inputs
  let outputs ← FixedRecord.need missing "outputs" q.outputs
  return ⟨kind, family, q.stateId.join, q.form.getD [], initialized, inputs, outputs,
    q.fanOut.getD [], q.position.join⟩

/-- Reads a node. -/
def read (whole : Part) : Except Complaint Node :=
  record.read (Partial.step whole) {} Partial.finish whole

end Node

namespace Edge

/-- An edge while it is being read. -/
structure Partial where
  source : Option NodeId := none
  output : Option Port := none
  target : Option NodeId := none
  input : Option Port := none

/-- The fields of an edge. -/
def record : FixedRecord := ⟨"struct Edge", ["from", "from_port", "to", "to_port"]⟩

/-- Reads one field of an edge. -/
def Partial.step (whole : Part) (q : Partial) (key : String) (p : Part) :
    Except Complaint Partial :=
  match key with
  | "from" => do
    let source ← Record.once whole key q.source (NodeId.read p)
    return { q with source }
  | "from_port" => do
    let output ← Record.once whole key q.output p.word
    return { q with output }
  | "to" => do
    let target ← Record.once whole key q.target (NodeId.read p)
    return { q with target }
  | _ => do
    let input ← Record.once whole key q.input p.word
    return { q with input }

/-- The edge of the fields that were read. -/
def Partial.finish (missing : String → Complaint) (q : Partial) : Except Complaint Edge := do
  let source ← FixedRecord.need missing "from" q.source
  let output ← FixedRecord.need missing "from_port" q.output
  let target ← FixedRecord.need missing "to" q.target
  let input ← FixedRecord.need missing "to_port" q.input
  return ⟨source, output, target, input⟩

/-- Reads an edge. -/
def read (whole : Part) : Except Complaint Edge :=
  record.read (Partial.step whole) {} Partial.finish whole

end Edge

namespace Metadata

/-- The document fields of a graph while they are being read. -/
structure Partial where
  functions : Option (Option (List Json)) := none
  extra : Option Fields := none

/-- The fields of the record. -/
def record : FixedRecord := ⟨"struct GraphMetadata", ["functions", "extra"]⟩

/-- Reads one field. -/
def Partial.step (whole : Part) (q : Partial) (key : String) (p : Part) :
    Except Complaint Partial :=
  match key with
  | "functions" => do
    let functions ← Record.once whole key q.functions (Record.optional (Record.list Source.json) p)
    return { q with functions }
  | _ => do
    let extra ← Record.once whole key q.extra p.fields
    return { q with extra }

/-- Reads the document fields of a graph. -/
def read (whole : Part) : Except Complaint Metadata :=
  record.read (Partial.step whole) {}
    (fun _ q => .ok ⟨q.functions.join, q.extra.getD []⟩) whole

end Metadata

namespace NodeTable

/-- Reads nodes by identifier. -/
def read (p : Part) : Except Complaint NodeTable := do
  let entries ← p.entriesAs "a map"
  let t ← entries.parts.foldlM (fun (t : NodeTable) e => do
    let id ← NodeId.read ⟨.str (← e.1), p.inText⟩
    return t.insert id (← Node.read e.2)) empty
  match entries.ending with
  | some c => throw c
  | none => return t

end NodeTable

namespace Snapshot

/-- A snapshot while it is being read. -/
structure Partial where
  nodes : Option NodeTable := none
  edges : Option (List Edge) := none
  metadata : Option Metadata := none

/-- The fields of a snapshot. -/
def record : FixedRecord := ⟨"struct GraphDefinition", ["nodes", "edges", "metadata"]⟩

/-- Reads one field of a snapshot. -/
def Partial.step (whole : Part) (q : Partial) (key : String) (p : Part) :
    Except Complaint Partial :=
  match key with
  | "nodes" => do
    let nodes ← Record.once whole key q.nodes (NodeTable.read p)
    return { q with nodes }
  | "edges" => do
    let edges ← Record.once whole key q.edges (Record.list Edge.read p)
    return { q with edges }
  | _ => do
    let metadata ← Record.once whole key q.metadata (Metadata.read p)
    return { q with metadata }

/-- Reads a snapshot. -/
def read (whole : Part) : Except Complaint Snapshot :=
  record.read (Partial.step whole) {}
    (fun missing q => do
      let nodes ← FixedRecord.need missing "nodes" q.nodes
      return ⟨nodes, q.edges.getD [], q.metadata.getD .empty⟩)
    whole

/-- Reads the JSON text of a snapshot. -/
def ofJsonText (text : String) : Except Complaint Snapshot := Json.readText read text

end Snapshot

end Workflow
