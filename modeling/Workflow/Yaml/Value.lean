import Workflow.Yaml.Node
import Workflow.Yaml.Scalar

/-!
# YAML values

`Node.value?` gives the value of a node when it has one on its own: no key occurs twice in a record,
every number fits 64 bits, and a tag of the core schema agrees with its scalar.
-/

namespace Workflow.Yaml

/-- A YAML value. -/
inductive Value where
  | scalar (s : Scalar)
  | seq (items : List Value)
  | map (entries : List (Value × Value))
  | tagged (tag : String) (v : Value)
  deriving Repr, Inhabited

/-- Whether two scalars are the same value: zero has one value whatever its sign. -/
def Scalar.same : Scalar → Scalar → Bool
  | .float (.finite x), .float (.finite y) => x = y || (x.mantissa = 0 && y.mantissa = 0)
  | s, t => s = t

namespace Value

mutual

/-- Whether two values are the same: the order of entries does not count, nor the mark in front of
the name of a tag. -/
def same : Value → Value → Bool
  | .scalar s, .scalar t => s.same t
  | .seq vs, .seq ws => sameItems vs ws
  | .map es, .map fs => es.length = fs.length && allAmong es fs
  | .tagged s v, .tagged t w => Tag.bareName s = Tag.bareName t && same v w
  | _, _ => false

/-- Whether two lists hold the same values in order. -/
def sameItems : List Value → List Value → Bool
  | [], [] => true
  | v :: vs, w :: ws => same v w && sameItems vs ws
  | _, _ => false

/-- Whether every entry is one of the others. -/
def allAmong : List (Value × Value) → List (Value × Value) → Bool
  | [], _ => true
  | (k, v) :: rest, others => others.any (fun e => same k e.1 && same v e.2) && allAmong rest others

end

end Value

namespace Node

/-- The node that an alias stands for; any other node itself. -/
def target : Node → Node
  | .alias n => n.target
  | n => n

/-- The name of a node's own tag. -/
def ownTag? (tag : Option Tag) : Option String := tag.bind Tag.name?

/-- The meaning of a scalar with its tag; nothing when a tag of the core schema does not agree with
the text. -/
def meaning? (tag : Option Tag) (plain : Bool) (text : String) : Option Scalar :=
  match tag with
  | some .bool => (Scalar.bool? text.toList).map .bool
  | some .int => Scalar.integer? text.toList
  | some .float => (Scalar.float? text.toList).map .float
  | some .null => if Scalar.isNull text.toList then some .null else none
  | some .other => some (.str text)
  | none | some (.own _) | some .unreadable =>
    some (if plain then Scalar.resolve text else .str text)

/-- A value with the tag of its node, if that is of the text's own. -/
def withTag (tag : Option Tag) (v : Value) : Value :=
  match ownTag? tag with
  | none => v
  | some name => .tagged name v

mutual

/-- The value of a node. -/
def value? : Node → Option Value
  | .scalar tag plain text =>
    match meaning? tag plain text with
    | none | some (.wide _) => none
    | some s => some (withTag tag (.scalar s))
  | .seq tag items => do return withTag tag (.seq (← itemValues? items))
  | .map tag entries => do return withTag tag (.map (← entryValues? [] entries))
  | .alias n => n.value?

/-- The values of the items of a list. -/
def itemValues? : List Node → Option (List Value)
  | [] => some []
  | n :: rest => do
    let v ← n.value?
    return v :: (← itemValues? rest)

/-- The values of the entries of a record whose keys are not among those of `seen`. -/
def entryValues? (seen : List Value) : List (Node × Node) → Option (List (Value × Value))
  | [] => some []
  | (k, n) :: rest => do
    let key ← k.value?
    if seen.any key.same then none
    else
      let v ← n.value?
      return (key, v) :: (← entryValues? (key :: seen) rest)

end

end Node

end Workflow.Yaml
