import Workflow.Json.Source

/-!
# Fixed records

A fixed record has a known list of fields. It is written as an object, whose other fields are passed
over, or as a list of the values of its fields in order.
-/

namespace Workflow.Json

/-- The name and the fields of a fixed record. -/
structure FixedRecord where
  /-- What a complaint calls the record. -/
  title : String
  names : List String

namespace FixedRecord

/-- What a complaint calls the record as a list. -/
def listTitle (d : FixedRecord) : String :=
  d.title ++ " with " ++ toString d.names.length ++ " elements"

variable {π α : Type}

/-- Reads a record from an object: the fields it has, in their order, one step each, and then what
`finish` makes of them. -/
def readObject (d : FixedRecord) (step : π → String → Part → Except Complaint π) (empty : π)
    (finish : (missing : String → Complaint) → π → Except Complaint α)
    (fields : List (String × Part)) (ending : Ending) : Except Complaint α := do
  let read (acc : π) (e : String × Part) : Except Complaint π :=
    if e.1 ∈ d.names then step acc e.1 e.2
    else if e.2.raw.skippable then .ok acc
    else .error (fault .malformed)
  let acc ← fields.foldlM read empty
  match ending with
  | .closed => finish (fun name => fault (.missingField name)) acc
  | .broken _ | .unnamed _ => .error (fault .malformed)

/-- Reads a record from a list: the values of its first fields, one step each, and then what
`finish` makes of them. -/
def readList (d : FixedRecord) (step : π → String → Part → Except Complaint π) (empty : π)
    (finish : (missing : String → Complaint) → π → Except Complaint α)
    (items : List Part) (ending : Ending) (inText : Bool) : Except Complaint α := do
  let acc ← (d.names.zip items).foldlM (fun acc e => step acc e.1 e.2) empty
  if items.length < d.names.length && ending ≠ .closed then .error (fault .malformed)
  else
    let v ← finish (fun name => fault (.invalidLength (d.names.idxOf name) d.listTitle)) acc
    if d.names.length < items.length && !inText then
      .error (fault (.invalidLength items.length "fewer elements in array"))
    else if d.names.length < items.length || ending ≠ .closed then .error (fault .malformed)
    else .ok v

/-- Reads a record. -/
def read (d : FixedRecord) (step : π → String → Part → Except Complaint π) (empty : π)
    (finish : (missing : String → Complaint) → π → Except Complaint α) (p : Part) :
    Except Complaint α :=
  match p.raw with
  | .obj fields ending =>
    d.readObject step empty finish (fields.map fun e => (e.1, ⟨e.2, p.inText⟩)) ending
  | .arr items ending =>
    d.readList step empty finish (items.map (⟨·, p.inText⟩)) ending p.inText
  | r => .error (fault (r.mismatch d.title))

/-- The value of a field that must be there. -/
def need (missing : String → Complaint) (name : String) : Option α → Except Complaint α
  | some v => .ok v
  | none => .error (missing name)

end FixedRecord

namespace Part

/-- A truth value. -/
def flag (p : Part) : Except Complaint Bool :=
  match p.raw with
  | .bool b => .ok b
  | r => .error (fault (r.mismatch "a boolean"))

/-- A word of sixteen bits. -/
def word (p : Part) : Except Complaint UInt16 :=
  match p.raw with
  | .num (.int n) =>
    if 0 ≤ n ∧ n < 65536 then .ok (UInt16.ofNat n.toNat)
    else .error (fault (.invalidValue (.int n) "u16"))
  | r => .error (fault (r.mismatch "u16"))

/-- A 32-bit float; a number that is too large for one is infinite. -/
def single (p : Part) : Except Complaint ExtendedFloat :=
  let nearest (negative : Bool) (x : Option BinaryFloat) : ExtendedFloat :=
    match x with
    | some x => .finite x
    | none => .infinite negative
  match p.raw with
  | .num (.int n) => .ok (nearest (n < 0) (FloatWidth.single.ofInt n))
  | .num (.float x) | .num (.single x) => .ok (nearest x.negative (FloatWidth.single.convert x))
  | r => .error (fault (r.mismatch "f32"))

/-- The record of a part, whatever its fields are. -/
def fields (p : Part) : Except Complaint Fields :=
  match p.raw with
  | .obj .. => Json.fieldsOf <$> p.toJson
  | r => .error (fault (r.mismatch "a map"))

end Part

end Workflow.Json
