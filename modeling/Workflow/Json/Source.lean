import Workflow.Json.Raw
import Workflow.Json.Printer
import Workflow.Record.Source

/-!
# Reading records from JSON

A record is read from a JSON text (`Json.readText`) or from a value at hand (`Json.readValue`). The
two differ in one point: where a name of an enumeration is expected, a text that spells another kind
of scalar is not well formed, while a value of another kind has the wrong type.
-/

namespace Workflow.Json

namespace Raw

mutual

/-- A value as a tree. -/
def ofJson : Json → Raw
  | .null => .null
  | .bool b => .bool b
  | .num n => .num n
  | .str s => .str s
  | .arr items => .arr (ofItems items) .closed
  | .obj fields => .obj (ofFields fields) .closed

/-- The trees of all items. -/
def ofItems : List Json → List Raw
  | [] => []
  | v :: rest => ofJson v :: ofItems rest

/-- The trees of all fields. -/
def ofFields : List (String × Json) → List (String × Raw)
  | [] => []
  | (k, v) :: rest => (k, ofJson v) :: ofFields rest

end

/-- The fault of a part that is not what was expected. -/
def mismatch (r : Raw) (expected : String) : Fault :=
  match r.found? with
  | some found => .invalidType found expected
  | none => .malformed

end Raw

/-- What a complaint calls a value. -/
def found : Json → Found
  | .null => .null
  | .bool b => .bool b
  | .num (.int n) => .int n
  | .num (.float x) | .num (.single x) => .float (.finite x)
  | .str s => .str s
  | .arr _ => .seq
  | .obj _ => .map

/-- The fault of a value that is not what was expected. -/
def mismatch (v : Json) (expected : String) : Fault := .invalidType v.found expected

/-- A part of JSON data; `inText` when it stands in a text. -/
structure Part where
  raw : Raw
  inText : Bool

/-- A fault in JSON data, whose place is not reported. -/
def fault (f : Fault) : Complaint := ⟨none, f⟩

/-- The complaint at the end of a container. -/
def Ending.complaint? : Ending → Option Complaint
  | .closed => none
  | .broken _ | .unnamed _ => some (fault .malformed)

namespace Part

/-- The string that a part spells, which is called `expected` in a complaint. -/
def stringAs (expected : String) (p : Part) : Except Complaint String :=
  match p.raw with
  | .str s => return s
  | r => throw (fault (r.mismatch expected))

/-- The items of a list. -/
def itemsOf (p : Part) : Except Complaint (Parts Part) :=
  match p.raw with
  | .arr items ending => return ⟨items.map (⟨·, p.inText⟩), ending.complaint?⟩
  | r => throw (fault (r.mismatch "a sequence"))

/-- The fields of a record, which is called `expected` in a complaint. -/
def entriesAs (expected : String) (p : Part) :
    Except Complaint (Parts (Except Complaint String × Part)) :=
  match p.raw with
  | .obj fields ending =>
    return ⟨fields.map fun e => (.ok e.1, ⟨e.2, p.inText⟩), ending.complaint?⟩
  | r => throw (fault (r.mismatch expected))

/-- The part as a value. -/
def toJson (p : Part) : Except Complaint Json :=
  match p.raw.toJson? with
  | some v => return v
  | none => throw (fault .malformed)

/-- A name of an enumeration, checked against the list of names. -/
def named (names : List String) (name : String) : Except Complaint String :=
  if name ∈ names then return name else throw (fault (.unknownVariant name names))

/-- One of a list of names: a string, or a record with that name as its only key and null under
it. -/
def variantOf (names : List String) (p : Part) : Except Complaint String :=
  match p.raw with
  | .str s => named names s
  | .obj ((name, r) :: rest) ending => do
    if !p.inText && !rest.isEmpty then
      throw (fault (.invalidValue .map "map with a single key"))
    let name ← named names name
    match r with
    | .null => pure ()
    | r => throw (fault (r.mismatch "unit"))
    if rest.isEmpty && ending = .closed then return name else throw (fault .malformed)
  | r =>
    if p.inText then
      match r with
      | .obj [] (.unnamed found) => throw (fault (.invalidType found "variant identifier"))
      | _ => throw (fault .malformed)
    else match r with
      | .obj .. => throw (fault (.invalidValue .map "map with a single key"))
      | r => throw (fault (r.mismatch "string or map"))

instance : Source Part where
  complain _ f := fault f
  string p := p.stringAs "a string"
  present? p := return match p.raw with | .null => none | _ => some p
  items p := p.itemsOf
  entries expected p := p.entriesAs expected
  json p := p.toJson
  held p := .ok <$> p.toJson
  variant names p := p.variantOf names

end Part

/-- The wording of complaints about JSON data. -/
def wording : Wording := ⟨"null", Number.jsonLayout⟩

/-- Reads a text; nothing but blanks may follow its value. -/
def readText {α : Type} (read : Part → Except Complaint α) (text : String) :
    Except Complaint α :=
  let (raw, complete) := Raw.ofText depthLimit text
  match read ⟨raw, true⟩ with
  | .ok v => if complete then .ok v else .error (fault .malformed)
  | .error c => .error c

/-- Reads a value at hand. -/
def readValue {α : Type} (read : Part → Except Complaint α) (v : Json) : Except Complaint α :=
  read ⟨.ofJson v, false⟩

end Workflow.Json
