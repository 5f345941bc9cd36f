import Workflow.Transform.Codec

/-!
# Forms

The editor shows the fields of a state as a form, in which the transforms are selections. A
`FormRule` says where a type keeps its transforms and takes fields to forms and back.
-/

namespace Workflow

/-- Where a transform stands in the fields of a state. -/
inductive TransformPlace where
  /-- A field. -/
  | field (key : String)
  /-- A field of a record. -/
  | nested (outer key : String)
  /-- A field of every record in a list. -/
  | eachIn (list key : String)
  deriving DecidableEq, Repr

namespace TransformPlace

variable {m : Type → Type} [Monad m]

/-- Changes the records of a list; the first item has position `index`. -/
def eachRecord (change : Nat → Fields → m Fields) (index : Nat) : List Json → m (List Json)
  | [] => return []
  | .obj record :: rest => do
    let record ← change index record
    return .obj record :: (← eachRecord change (index + 1) rest)
  | v :: rest => return v :: (← eachRecord change (index + 1) rest)

/-- Applies a change to the transforms at a place. The change is given a record, the key of the
transform in it, and the path of the transform, which starts with `id`. -/
def apply (change : Fields → (key path : String) → m Fields) (id : String) (fields : Fields) :
    TransformPlace → m Fields
  | field key => change fields key (id ++ "." ++ key)
  | nested outer key =>
    match fields.get? outer with
    | some (.obj record) => do
      let record ← change record key (id ++ "." ++ outer ++ "." ++ key)
      return fields.insert outer (.obj record)
    | _ => return fields
  | eachIn list key =>
    match fields.get? list with
    | some (.arr items) => do
      let items ← eachRecord (fun index record =>
        change record key (id ++ "." ++ list ++ "[" ++ toString index ++ "]." ++ key)) 0 items
      return fields.insert list (.arr items)
    | _ => return fields

/-- The fields with the transforms at a place decoded. -/
def decode (fields : Fields) (place : TransformPlace) : Fields :=
  Id.run (place.apply (fun record key _ => pure (record.decodeAt key)) "" fields)

/-- The fields with the transforms at a place encoded. -/
def encode (id : String) (fields : Fields) (place : TransformPlace) : Except CodecError Fields :=
  place.apply Fields.encodeAt id fields

end TransformPlace

/-- How the fields of a state become a form. -/
inductive FormRule where
  /-- The form is the fields. -/
  | plain
  /-- The transforms at the given places are selections. -/
  | transforms (places : List TransformPlace)
  /-- The form of a loop: as `transforms`, and a list of one retry policy is that policy. -/
  | loop (places : List TransformPlace)
  deriving DecidableEq, Repr

namespace FormRule

/-- The rule of a type that tells no other: one transform, in the field of that name. -/
def standard : FormRule := transforms [.field "transform"]

/-- The fields of a loop with the only retry policy of its action in place of the list. -/
def unwrapRetries (fields : Fields) : Fields :=
  match fields.get? "action" with
  | some (.obj action) =>
    match Fields.get? action "retries" with
    | some (.arr [policy]) =>
      fields.insert "action" (.obj (Fields.insert action "retries" policy))
    | _ => fields
  | _ => fields

/-- The form for the fields of a state. -/
def toForm (r : FormRule) (fields : Fields) : Fields :=
  match r with
  | plain => fields
  | transforms places => places.foldl TransformPlace.decode fields
  | loop places => places.foldl TransformPlace.decode (unwrapRetries fields)

/-- The fields for the form of the state `id`. -/
def ofForm (r : FormRule) (id : String) (form : Fields) : Except CodecError Fields :=
  match r with
  | plain => .ok form
  | transforms places | loop places => places.foldlM (TransformPlace.encode id) form

end FormRule

end Workflow
