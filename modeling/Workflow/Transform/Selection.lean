import Workflow.Json.Source

/-!
# Transform selections

The editor keeps a transform as a record that names its encoding. Such a record may also be written
as a list: the name of the encoding, then the content.
-/

namespace Workflow

/-- How the content of a transform is encoded. -/
inductive Encoding where
  | query
  | keyValue
  | yaml
  | script
  deriving DecidableEq, Repr

namespace Encoding

/-- The encodings, in order. -/
def all : List Encoding := [query, keyValue, yaml, script]

/-- The name of an encoding. -/
def name : Encoding → String
  | query => "jq"
  | keyValue => "key-value"
  | yaml => "yaml"
  | script => "js"

/-- The encoding with a given name. -/
def ofName? (name : String) : Option Encoding := all.find? (·.name = name)

/-- The field that holds the content. -/
def field : Encoding → String
  | query => "jqQuery"
  | keyValue => "keyValue"
  | yaml => "rawYAML"
  | script => "jsQuery"

/-- What a complaint calls a selection of this encoding. -/
def title : Encoding → String
  | query => "struct variant TransformSelection::Jq with 1 element"
  | keyValue => "struct variant TransformSelection::KeyValue with 1 element"
  | yaml => "struct variant TransformSelection::Yaml with 1 element"
  | script => "struct variant TransformSelection::Js with 1 element"

end Encoding

/-- The editor's form of a transform. -/
inductive Selection where
  /-- A query. -/
  | query (text : String)
  /-- A record of values. -/
  | keyValue (fields : Fields)
  /-- Any value, as YAML text. -/
  | yaml (text : String)
  /-- A script without its marks. -/
  | script (body : String)
  deriving DecidableEq, Repr

namespace Selection

/-- The encoding of a selection. -/
def encoding : Selection → Encoding
  | query _ => .query
  | keyValue _ => .keyValue
  | yaml _ => .yaml
  | script _ => .script

/-- The content of a selection. -/
def content : Selection → Json
  | query text => .str text
  | keyValue fields => .obj fields
  | yaml text => .str text
  | script body => .str body

/-- The field that names the encoding. -/
def tag : String := "selectionType"

/-- A selection as a record. -/
def toJson (s : Selection) : Json :=
  .obj [(tag, .str s.encoding.name), (s.encoding.field, s.content)]

/-- The content of a selection as a string. -/
def textOf : Json → Except Fault String
  | .str text => .ok text
  | v => .error (v.mismatch "a string")

/-- The content of a selection as a record. -/
def fieldsOf : Json → Except Fault Fields
  | .obj fields => .ok fields
  | v => .error (v.mismatch "a map")

/-- The selection with a given encoding and content. -/
def ofContent (encoding : Encoding) (content : Json) : Except Fault Selection :=
  match encoding with
  | .query => query <$> textOf content
  | .keyValue => keyValue <$> fieldsOf content
  | .yaml => yaml <$> textOf content
  | .script => script <$> textOf content

/-- The encoding that a value names. -/
def encodingOf : Json → Except Fault Encoding
  | .str name =>
    match Encoding.ofName? name with
    | some e => .ok e
    | none => .error (.unknownVariant name (Encoding.all.map Encoding.name))
  | v => .error (v.mismatch "variant identifier")

/-- Reads a selection. Other fields of its record do not matter; its list has one item behind the
name. -/
def ofJson : Json → Except Fault Selection
  | .obj fields =>
    match Fields.get? fields tag with
    | none => .error (.missingField tag)
    | some name => do
      let e ← encodingOf name
      match Fields.get? fields e.field with
      | none => .error (.missingField e.field)
      | some content => ofContent e content
  | .arr [] => .error (.missingField tag)
  | .arr (name :: rest) => do
    let e ← encodingOf name
    match rest with
    | [] => .error (.invalidLength 0 e.title)
    | content :: others =>
      let s ← ofContent e content
      if others.isEmpty then .ok s
      else .error (.invalidLength (1 + others.length) "1 element in sequence")
  | v => .error (v.mismatch "internally tagged enum TransformSelection")

theorem ofJson_toJson (s : Selection) : ofJson s.toJson = .ok s := by
  cases s <;> rfl

end Selection

end Workflow
