import Workflow.Transform.Selection
import Workflow.Transform.Shape
import Workflow.Yaml.Printer
import Workflow.Yaml.Source

/-!
# Transform values and selections

`Transform.decode` turns the value of a transform field into the selection that the editor shows, by
the shape of the value; `Transform.encode` turns a selection back into a value, by its encoding
alone. An empty value is no value in both directions.
-/

namespace Workflow

/-- Why a transform cannot be encoded. -/
inductive CodecFault where
  /-- The YAML text of a selection cannot be read. -/
  | unreadable
  /-- The value is not a selection. -/
  | notSelection (fault : Fault)
  deriving DecidableEq, Repr

/-- A transform that cannot be encoded, with the path of its field. -/
structure CodecError where
  path : String
  fault : CodecFault
  deriving DecidableEq, Repr

namespace CodecFault

/-- What is wrong, where the library says it in words of its own. -/
def message? : CodecFault → Option String
  | unreadable => none
  | notSelection f => some ("expected a transform selection: " ++ f.message Json.wording)

end CodecFault

namespace CodecError

/-- The message of a transform that cannot be encoded. -/
def message (e : CodecError) : String :=
  "invalid transform at " ++ e.path ++ ": " ++ e.fault.message?.getD "malformed YAML"

end CodecError

namespace Transform

/-- The selection for a value; nothing for an empty value. -/
def decode (v : Json) : Option Selection :=
  match Shape.of v with
  | .empty => none
  | .script body => some (.script body)
  | .structured v => some (.yaml (Yaml.print v))
  | .flat fields => some (.keyValue fields)
  | .query text => some (.query text)

/-- The value of a YAML text; blanks alone are no value. -/
def yamlValue (text : String) : Except CodecFault Json :=
  if text.toList.all Text.isBlank then .ok .null
  else match Yaml.toJson? text with
    | some v => .ok v
    | none => .error .unreadable

/-- The value that a selection stands for, which may be empty. -/
def rawValue : Selection → Except CodecFault Json
  | .query text => .ok (.str text)
  | .keyValue fields => .ok (.obj fields)
  | .yaml text => yamlValue text
  | .script body => .ok (.str (Script.wrap body))

/-- The value for a selection; nothing when it is empty. -/
def encode (s : Selection) : Except CodecFault (Option Json) := do
  let v ← rawValue s
  return if v.isBlank then none else some v

/-- Decodes a value in its record form. -/
def decodeValue (v : Json) : Option Json := (decode v).map Selection.toJson

/-- Encodes a value that is a selection in its record form; null is no value. -/
def encodeValue : Json → Except CodecFault (Option Json)
  | .null => .ok none
  | v =>
    match Selection.ofJson v with
    | .ok s => encode s
    | .error f => .error (.notSelection f)

end Transform

namespace Fields

/-- Puts a value under a key, or removes the key. -/
def assign (fields : Fields) (key : String) : Option Json → Fields
  | some v => fields.insert key v
  | none => fields.erase key

/-- Decodes the transform under a key. -/
def decodeAt (fields : Fields) (key : String) : Fields :=
  match fields.get? key with
  | none => fields
  | some v => fields.assign key (Transform.decodeValue v)

/-- Encodes the transform under a key; `path` names the field in an error. -/
def encodeAt (fields : Fields) (key path : String) : Except CodecError Fields :=
  match fields.get? key with
  | none => .ok fields
  | some v =>
    match Transform.encodeValue v with
    | .ok v? => .ok (fields.assign key v?)
    | .error f => .error ⟨path, f⟩

end Fields

end Workflow
