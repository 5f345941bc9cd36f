import Workflow.Record.Source
import Workflow.Yaml.Value

/-!
# Reading records from YAML

A record is read from the nodes of a YAML text. Complaints name the place of the node: the keys and
positions that lead to it.
-/

namespace Workflow.Yaml

/-- A part of a YAML document. -/
structure Part where
  node : Node
  /-- The place of the part; none for the whole document. -/
  place : Option String
  /-- The place of the record or list that the part belongs to. -/
  parent : Option String

namespace Part

/-- The whole of a document. -/
def root (n : Node) : Part := ⟨n, none, none⟩

/-- The item of a list at a position. -/
def item (p : Part) (position : Nat) (n : Node) : Part :=
  ⟨n, some (p.place.getD "." ++ "[" ++ toString position ++ "]"), p.place⟩

/-- The items of a list from a position on. -/
def itemsFrom (p : Part) (position : Nat) : List Node → List Part
  | [] => []
  | n :: rest => p.item position n :: itemsFrom p (position + 1) rest

/-- The field of a record under a key; the place of a field whose key is not a scalar is not
known. -/
def field (p : Part) (key n : Node) : Part :=
  let before := match p.place with
    | none => ""
    | some place => place ++ "."
  match key with
  | .scalar _ _ text => ⟨n, some (before ++ text), p.place⟩
  | _ => ⟨n, some (before ++ "?"), p.place⟩

/-- A fault at this part. -/
def fault (p : Part) (f : Fault) : Complaint := ⟨p.place, f⟩

/-- What a complaint says was found. -/
def found? (n : Node) : Option Found :=
  match n.target with
  | .scalar tag plain text =>
    match Node.meaning? tag plain text with
    | some .null => some .null
    | some (.bool b) => some (.bool b)
    | some (.int n) => some (.int n)
    | some (.float x) => some (.float x)
    | some (.str s) => some (.str s)
    | some (.wide _) | none => none
  | .seq .. => some .seq
  | .map .. => some .map
  | .alias _ => none

/-- The fault of a node that is not what was expected. -/
def mismatch (n : Node) (expected : String) : Fault :=
  match found? n with
  | some found => .invalidType found expected
  | none => .malformed

/-- Whether a node is written as nothing at all. -/
def isEmptyScalar : Node → Bool
  | .scalar _ plain text => plain && text.isEmpty
  | _ => false

/-- The text of a scalar, which is called `expected` in a complaint. -/
def text (expected : String) (p : Part) (n : Node) : Except Complaint String :=
  match n.target with
  | .scalar _ _ text => return text
  | n => throw (p.fault (mismatch n expected))

/-- The part, unless it is written as null or as nothing. -/
def present? (p : Part) : Except Complaint (Option Part) :=
  match p.node.target with
  | .scalar tag true text =>
    match tag with
    | none => return if text.isEmpty || Scalar.isNull text.toList then none else some p
    | some .null =>
      if Scalar.isNull text.toList then return none else throw (p.fault .malformed)
    | some _ => return some p
  | _ => return some p

/-- The items of a list; a part written as nothing has none. -/
def items (p : Part) : Except Complaint (Parts Part) :=
  match p.node.target with
  | .seq _ items => return ⟨p.itemsFrom 0 items, none⟩
  | n => if isEmptyScalar n then return ⟨[], none⟩ else throw (p.fault (mismatch n "a sequence"))

/-- The fields of a record, which is called `expected` in a complaint; a part written as nothing has
none. -/
def entries (expected : String) (p : Part) :
    Except Complaint (Parts (Except Complaint String × Part)) :=
  match p.node.target with
  | .map _ entries =>
    return ⟨entries.map fun e => (p.text "field identifier" e.1, p.field e.1 e.2), none⟩
  | n => if isEmptyScalar n then return ⟨[], none⟩ else throw (p.fault (mismatch n expected))

/-- The JSON value of a scalar; a float that is not finite is null. -/
def scalarJson? : Scalar → Option Json
  | .null => some .null
  | .bool b => some (.bool b)
  | .int n => some (.num (.int n))
  | .wide _ => none
  | .float (.finite x) => some (.num (.float x))
  | .float _ => some .null
  | .str s => some (.str s)

/-- What a complaint calls plain data. -/
def anyValue : String := "any valid JSON value"

/-- What a complaint calls a key of a record of plain data that has the fields `acc` so far. -/
def keyName (acc : Fields) : String := if acc.isEmpty then "a string key" else "a string"

mutual

/-- A node at a place as plain data. The text of any scalar can be a key; a repeated key keeps its
first place and its last value. -/
def json (place : Option String) : Node → Except Complaint Json
  | .scalar tag plain text =>
    if (Node.ownTag? tag).isSome then throw ⟨place, .invalidType .tagged anyValue⟩
    else match (Node.meaning? tag plain text).bind scalarJson? with
      | some v => return v
      | none => throw ⟨place, .malformed⟩
  | .seq tag items =>
    if (Node.ownTag? tag).isSome then throw ⟨place, .invalidType .tagged anyValue⟩
    else .arr <$> jsonItems place 0 items
  | .map tag entries =>
    if (Node.ownTag? tag).isSome then throw ⟨place, .invalidType .tagged anyValue⟩
    else .obj <$> jsonFields place [] entries
  | .alias n => json place n

/-- The items of a list from a position on, as plain data. -/
def jsonItems (place : Option String) (position : Nat) : List Node → Except Complaint (List Json)
  | [] => return []
  | n :: rest => do
    let v ← json ((Part.mk n place none).item position n).place n
    return v :: (← jsonItems place (position + 1) rest)

/-- Adds the fields of a record as plain data. -/
def jsonFields (place : Option String) (acc : Fields) :
    List (Node × Node) → Except Complaint Fields
  | [] => return acc
  | (k, n) :: rest => do
    let whole : Part := ⟨n, place, none⟩
    let key ← whole.text (keyName acc) k
    let v ← json (whole.field k n).place n
    jsonFields place (acc.insert key v) rest

end

mutual

/-- Checks that a node at a place can be kept aside: nothing in it has a tag of its own. -/
def untagged (place : Option String) : Node → Except Complaint Unit
  | .scalar tag plain text =>
    if (Node.ownTag? tag).isSome then throw ⟨place, .taggedValue⟩
    else match (Node.meaning? tag plain text).bind scalarJson? with
      | some _ => return ()
      | none => throw ⟨place, .malformed⟩
  | .seq tag items =>
    if (Node.ownTag? tag).isSome then throw ⟨place, .taggedValue⟩
    else untaggedItems place 0 items
  | .map tag entries =>
    if (Node.ownTag? tag).isSome then throw ⟨place, .taggedValue⟩
    else untaggedFields place entries
  | .alias n => untagged place n

/-- Checks the items of a list from a position on. -/
def untaggedItems (place : Option String) (position : Nat) :
    List Node → Except Complaint Unit
  | [] => return ()
  | n :: rest => do
    untagged ((Part.mk n place none).item position n).place n
    untaggedItems place (position + 1) rest

/-- Checks the fields of a record, keys first. -/
def untaggedFields (place : Option String) : List (Node × Node) → Except Complaint Unit
  | [] => return ()
  | (k, n) :: rest => do
    untagged place k
    untagged ((Part.mk n place none).field k n).place n
    untaggedFields place rest

end

mutual

/-- A node that was kept aside, as plain data; only strings can be keys. -/
def heldJson : Node → Except Fault Json
  | .scalar tag plain text =>
    match (Node.meaning? tag plain text).bind scalarJson? with
    | some v => return v
    | none => throw .malformed
  | .seq _ items => .arr <$> heldItems items
  | .map _ entries => .obj <$> heldFields [] entries
  | .alias n => heldJson n

/-- The items of a list that was kept aside. -/
def heldItems : List Node → Except Fault (List Json)
  | [] => return []
  | n :: rest => do
    let v ← heldJson n
    return v :: (← heldItems rest)

/-- Adds the fields of a record that was kept aside. -/
def heldFields (acc : Fields) : List (Node × Node) → Except Fault Fields
  | [] => return acc
  | (k, n) :: rest => do
    match found? k with
    | some (.str key) => do
      let v ← heldJson n
      heldFields (acc.insert key v) rest
    | _ => throw (mismatch k (keyName acc))

end

/-- A part that is kept aside while the rest of its record is read. -/
def held (p : Part) : Except Complaint (Except Fault Json) := do
  untagged p.place p.node
  return heldJson p.node

/-- One of a list of names: the text of a scalar, or the name of a tag in front of nothing. -/
def variant (names : List String) (p : Part) : Except Complaint String := do
  let named (place : Option String) (name : String) : Except Complaint String :=
    if name ∈ names then return name else throw ⟨place, .unknownVariant name names⟩
  let tagged (name : String) (content : Option Fault) : Except Complaint String := do
    let name ← named p.parent name
    match content with
    | none => return name
    | some f => throw (p.fault f)
  match p.node.target with
  | .scalar tag plain text =>
    match Node.ownTag? tag with
    | none => named p.place text
    | some name =>
      tagged name <|
        if plain && (text.isEmpty || Scalar.isNull text.toList) then none
        else some (.invalidValue (.str text) "null")
  | .seq tag _ =>
    match Node.ownTag? tag with
    | none => throw (p.fault (.invalidType .seq "a YAML tag starting with '!'"))
    | some name => tagged name (some (.invalidType .seq "unit"))
  | .map tag _ =>
    match Node.ownTag? tag with
    | none => throw (p.fault (.invalidType .map "a YAML tag starting with '!'"))
    | some name => tagged name (some (.invalidType .map "unit"))
  | .alias _ => throw (p.fault .malformed)

instance : Source Part where
  complain := fault
  string p := p.text "a string" p.node
  present? := present?
  items := items
  entries := entries
  json p := json p.place p.node
  held := held
  variant := variant

end Part

/-- The wording of complaints about YAML data. -/
def wording : Wording := ⟨"unit value", .full⟩

/-- Reads a text. A complaint about its shape is only made of a text that has a value on its own;
any other text that cannot be read is malformed. -/
def readText {α : Type} (read : Part → Except Complaint α) (text : String) :
    Except Complaint α :=
  match Node.ofText? text with
  | none => .error ⟨none, .malformed⟩
  | some n? =>
    let n := n?.getD .empty
    match read (.root n) with
    | .ok v => .ok v
    | .error c => if n.value?.isSome then .error c else .error ⟨none, .malformed⟩

/-- The JSON value of a text. -/
def toJson? (text : String) : Option Json := (readText Source.json text).toOption

example : toJson? "a: &x [1, .inf]\nb: *x\na: y\n"
    = some (.obj [("a", .str "y"), ("b", .arr [.num (.int 1), .null])]) := by decide +kernel

end Workflow.Yaml
