import Workflow.Record.Source

/-!
# States

A state of a workflow has an id, a type and a list of error handlers; all other fields are kept as
they are and belong to the type.
-/

namespace Workflow

/-- An error handler of a state. -/
structure CatchEntry where
  /-- The pattern that the code of an error is matched against. -/
  error : String
  /-- The state that follows when the pattern matches. -/
  transition : Option String
  /-- Any other fields. -/
  extra : Fields
  deriving DecidableEq, Repr

/-- A state. -/
structure State where
  id : String
  /-- The name of the type. -/
  kind : String
  /-- The fields that belong to the type, transitions among them. -/
  fields : Fields
  /-- The error handlers, in order. -/
  handlers : Option (List CatchEntry)
  deriving DecidableEq, Repr

/-- A text field that is left out when absent. -/
def optionalText (key : String) : Option String → List (String × Json)
  | some s => [(key, .str s)]
  | none => []

namespace CatchEntry

/-- The entries of an error handler in a document. -/
def entries (c : CatchEntry) : List (String × Json) :=
  ("error", .str c.error) :: optionalText "transition" c.transition ++ c.extra

/-- An error handler as a record. -/
def toJson (c : CatchEntry) : Json := .obj c.entries

/-- An error handler while it is being read. -/
structure Partial where
  error : Option String
  transition : Option (Option String)
  held : Held

variable {σ : Type} [Source σ]

/-- Reads one field of an error handler. -/
def Partial.step (whole : σ) (p : Partial) (key : String) (part : σ) :
    Except Complaint Partial := do
  if key = "error" then
    let error ← Record.once whole key p.error (Source.string part)
    return { p with error }
  else if key = "transition" then
    let transition ← Record.once whole key p.transition (Record.optional Source.string part)
    return { p with transition }
  else return { p with held := ← p.held.add key part }

/-- Reads an error handler. -/
def read (part : σ) : Except Complaint CatchEntry := do
  let p ← Record.fields "struct CatchEntry" (Partial.step part) ⟨none, none, []⟩ part
  let error ← Record.need part "error" p.error
  return ⟨error, p.transition.join, ← p.held.settle part⟩

end CatchEntry

namespace State

/-- The plain transition of a state. -/
def transition? (s : State) : Option String := (s.fields.get? "transition").bind Json.str?

/-- The entries of a state in a document: id, type, the other fields, and the error handlers. -/
def entries (s : State) : List (String × Json) :=
  ("id", .str s.id) :: ("type", .str s.kind) :: s.fields ++
    match s.handlers with
    | some cs => [("catch", .arr (cs.map CatchEntry.toJson))]
    | none => []

/-- A state as a record; a key of the other fields may repeat one of the state's own. -/
def toJson (s : State) : Json := .obj s.entries

/-- A state while it is being read. -/
structure Partial where
  id : Option String
  kind : Option String
  handlers : Option (Option (List CatchEntry))
  held : Held

variable {σ : Type} [Source σ]

/-- Reads one field of a state. -/
def Partial.step (whole : σ) (p : Partial) (key : String) (part : σ) :
    Except Complaint Partial := do
  if key = "id" then
    let id ← Record.once whole key p.id (Source.string part)
    return { p with id }
  else if key = "type" then
    let kind ← Record.once whole key p.kind (Source.string part)
    return { p with kind }
  else if key = "catch" then
    let handlers ←
      Record.once whole key p.handlers (Record.optional (Record.list CatchEntry.read) part)
    return { p with handlers }
  else return { p with held := ← p.held.add key part }

/-- Reads a state. -/
def read (part : σ) : Except Complaint State := do
  let p ← Record.fields "struct State" (Partial.step part) ⟨none, none, none, []⟩ part
  let id ← Record.need part "id" p.id
  let kind ← Record.need part "type" p.kind
  return ⟨id, kind, ← p.held.settle part, p.handlers.join⟩

end State

end Workflow
