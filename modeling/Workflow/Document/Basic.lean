import Workflow.Document.Start
import Workflow.Document.State
import Workflow.Json.Source

/-!
# Workflow documents

A document is an ordered list of states with an optional start block, an optional list of functions,
and any other top-level fields, which are kept as they are.
-/

namespace Workflow

/-- A workflow document. -/
structure Document where
  /-- The top-level fields that have no meaning here. -/
  extra : Fields
  functions : Option (List Json)
  start : Option Start
  states : List State
  deriving DecidableEq, Repr

namespace Document

/-- The first state with a given id. -/
def state? (d : Document) (id : String) : Option State := d.states.find? (·.id = id)

/-- The entries of a document: the fields kept as they are, functions, start block and states. -/
def entries (d : Document) : List (String × Json) :=
  d.extra ++
  (match d.functions with | some fs => [("functions", .arr fs)] | none => []) ++
  (match d.start with | some s => [("start", .obj s.entries)] | none => []) ++
  [("states", .arr (d.states.map State.toJson))]

/-- A document as a record; a key of the fields kept as they are may repeat one of its own. -/
def toJson (d : Document) : Json := .obj d.entries

/-- The JSON text of a document. -/
def jsonText (d : Document) : String := d.toJson.pretty

/-- A document while it is being read. -/
structure Partial where
  functions : Option (Option (List Json))
  start : Option (Option Start)
  states : Option (List State)
  held : Held

variable {σ : Type} [Source σ]

/-- Reads one field of a document. -/
def Partial.step (whole : σ) (p : Partial) (key : String) (part : σ) :
    Except Complaint Partial := do
  if key = "functions" then
    let functions ←
      Record.once whole key p.functions (Record.optional (Record.list Source.json) part)
    return { p with functions }
  else if key = "start" then
    let start ← Record.once whole key p.start (Record.optional Start.read part)
    return { p with start }
  else if key = "states" then
    let states ← Record.once whole key p.states (Record.list State.read part)
    return { p with states }
  else return { p with held := ← p.held.add key part }

/-- Reads a document. A document without states has none. -/
def read (part : σ) : Except Complaint Document := do
  let p ← Record.fields "struct Document" (Partial.step part) ⟨none, none, none, []⟩ part
  return ⟨← p.held.settle part, p.functions.join, p.start.join, p.states.getD []⟩

/-- Reads the JSON text of a document. -/
def ofJsonText (text : String) : Except Complaint Document := Json.readText read text

end Document

end Workflow
