import Workflow.Json.Printer
import Workflow.Record.Source

/-!
# The start block

A start block names the entry state of a workflow and says how the workflow is started. The editor
keeps the same data as a form without the entry state; each way of starting has fields of its own,
and only those are taken over from a form.
-/

namespace Workflow

/-- How a workflow is started. -/
inductive StartKind where
  /-- Started explicitly. -/
  | plain
  /-- Started on a schedule. -/
  | scheduled
  /-- Started by one event. -/
  | event
  /-- Started by whichever of several events arrives first. -/
  | eventsXor
  /-- Started once all of several events have arrived. -/
  | eventsAnd
  deriving DecidableEq, Repr

namespace StartKind

/-- The kinds, in order. -/
def all : List StartKind := [plain, scheduled, event, eventsXor, eventsAnd]

/-- The name of a kind in documents and forms. -/
def name : StartKind → String
  | plain => "default"
  | scheduled => "scheduled"
  | event => "event"
  | eventsXor => "eventsXor"
  | eventsAnd => "eventsAnd"

/-- The kind with a given name. -/
def ofName? (name : String) : Option StartKind := all.find? (·.name = name)

/-- The fields that a start block of this kind has. -/
def fields : StartKind → List String
  | plain => []
  | scheduled => ["cron"]
  | event => ["event"]
  | eventsXor => ["events"]
  | eventsAnd => ["events", "lifespan", "correlate"]

theorem ofName?_name (k : StartKind) : ofName? k.name = some k := by
  cases k <;> decide

end StartKind

/-- The start block of a document. -/
structure Start where
  kind : Option StartKind
  /-- The id of the entry state. -/
  state : Option String
  /-- The fields that belong to the kind, and any others. -/
  fields : Fields
  deriving DecidableEq, Repr

/-- Why a form is not the form of a start block. -/
inductive StartFault where
  | unknownKind (name : String)
  | kindNotText (value : Json)
  deriving DecidableEq, Repr

/-- The message of a start fault. -/
def StartFault.message : StartFault → String
  | unknownKind name => "unknown start type " ++ Found.backquoted name
  | kindNotText value => "start type must be a string, got " ++ value.compact

namespace Start

/-- The kind that a form names; none when the name is absent or null. -/
def kindOfForm (form : Fields) : Except StartFault (Option StartKind) :=
  match form.get? "type" with
  | none | some .null => .ok none
  | some (.str name) =>
    match StartKind.ofName? name with
    | some kind => .ok (some kind)
    | none => .error (.unknownKind name)
  | some other => .error (.kindNotText other)

/-- The start block of a form with the given entry state: of the form only the fields that belong to
its kind are kept. -/
def ofForm (form : Fields) (state : String) : Except StartFault Start := do
  let kind ← kindOfForm form
  let keys := (kind.getD .plain).fields
  return ⟨kind, some state, keys.filterMap fun key => (form.get? key).map (key, ·)⟩

/-- The form of a start block, without the entry state. -/
def toForm (s : Start) : Fields :=
  let named : Fields := match s.kind with
    | some kind => [("type", .str kind.name)]
    | none => []
  named.insertAll s.fields

/-- The entries of a start block in a document: kind, entry state, and the other fields. -/
def entries (s : Start) : List (String × Json) :=
  (match s.kind with | some kind => [("type", .str kind.name)] | none => []) ++
  (match s.state with | some state => [("state", .str state)] | none => []) ++ s.fields

/-- A start block while it is being read. -/
structure Partial where
  kind : Option (Option StartKind)
  state : Option (Option String)
  held : Held

variable {σ : Type} [Source σ]

/-- Reads a start kind by its name. -/
def readKind (part : σ) : Except Complaint StartKind := do
  let names := StartKind.all.map StartKind.name
  let name ← Source.variant names part
  return (StartKind.ofName? name).getD .plain

/-- Reads one field of a start block. -/
def Partial.step (whole : σ) (p : Partial) (key : String) (part : σ) :
    Except Complaint Partial := do
  if key = "type" then
    let kind ← Record.once whole key p.kind (Record.optional readKind part)
    return { p with kind }
  else if key = "state" then
    let state ← Record.once whole key p.state (Record.optional Source.string part)
    return { p with state }
  else return { p with held := ← p.held.add key part }

/-- Reads a start block. -/
def read (part : σ) : Except Complaint Start := do
  let p ← Record.fields "struct Start" (Partial.step part) ⟨none, none, []⟩ part
  return ⟨p.kind.join, p.state.join, ← p.held.settle part⟩

end Start

end Workflow
