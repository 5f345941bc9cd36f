import Workflow.Record.Fault
import Workflow.Json.Basic

/-!
# Reading records from data

A `Source` is a part of some data (a JSON text, a YAML node) that can be read as a string, a list, a
record and so on. Records are read field by field in the order of the data, and the first fault ends
the reading; `Record.once`, `Record.need` and `Held` are the pieces from which the readers of the
document types are built.
-/

namespace Workflow

/-- The parts of a container in order, and the complaint that its end raises, if any, after all of
them have been read. -/
structure Parts (α : Type) where
  parts : List α
  ending : Option Complaint

/-- Data that records can be read from. -/
class Source (σ : Type) where
  /-- A fault at this part. -/
  complain : σ → Fault → Complaint
  /-- The part as a string. -/
  string : σ → Except Complaint String
  /-- The part itself, or nothing when it stands for an absent value. -/
  present? : σ → Except Complaint (Option σ)
  /-- The items of a list. -/
  items : σ → Except Complaint (Parts σ)
  /-- The fields of a record, which is called `expected` in a complaint. -/
  entries : (expected : String) → σ → Except Complaint (Parts (Except Complaint String × σ))
  /-- The part as plain data. -/
  json : σ → Except Complaint Json
  /-- The part as plain data that is kept aside while the rest of its record is read. -/
  held : σ → Except Complaint (Except Fault Json)
  /-- The part as one of a list of names. -/
  variant : (names : List String) → σ → Except Complaint String

namespace Record

variable {σ : Type} [Source σ] {α : Type}

/-- Reads a list item by item. -/
def list (read : σ → Except Complaint α) (part : σ) : Except Complaint (List α) := do
  let items ← Source.items part
  let values ← items.parts.mapM read
  match items.ending with
  | some c => throw c
  | none => return values

/-- Reads a record field by field, starting from `empty`. -/
def fields (expected : String) (step : α → String → σ → Except Complaint α) (empty : α)
    (part : σ) : Except Complaint α := do
  let entries ← Source.entries expected part
  let value ← entries.parts.foldlM (fun acc e => do step acc (← e.1) e.2) empty
  match entries.ending with
  | some c => throw c
  | none => return value

/-- Reads a field that may occur once. -/
def once (part : σ) (name : String) (slot : Option α) (read : Except Complaint α) :
    Except Complaint (Option α) :=
  if slot.isSome then throw (Source.complain part (.duplicateField name)) else some <$> read

/-- The value of a field that must occur. -/
def need (part : σ) (name : String) : Option α → Except Complaint α
  | some v => return v
  | none => throw (Source.complain part (.missingField name))

/-- Reads a value that may be absent. -/
def optional (read : σ → Except Complaint α) (part : σ) : Except Complaint (Option α) := do
  match ← Source.present? part with
  | some part => some <$> read part
  | none => return none

end Record

/-- The fields of a record that are kept aside, in order. -/
abbrev Held := List (String × Except Fault Json)

namespace Held

variable {σ : Type} [Source σ]

/-- Keeps one more field aside. -/
def add (held : Held) (key : String) (part : σ) : Except Complaint Held := do
  return held ++ [(key, ← Source.held part)]

/-- The record of the fields kept aside; a repeated key keeps its first place and its last value. -/
def settle (part : σ) (held : Held) : Except Complaint Fields :=
  held.foldlM (fun acc e => match e.2 with
    | .ok v => return acc.insert e.1 v
    | .error f => throw (Source.complain part f)) []

end Held

end Workflow
