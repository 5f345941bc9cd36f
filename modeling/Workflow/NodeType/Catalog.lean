import Workflow.NodeType.Form
import Workflow.NodeType.Transition

/-!
# Node types

A `NodeType` says what the nodes of a type are like: their ports, the form of their fields, and the
slots that their outputs stand for. A `Catalog` holds types by name; `Catalog.standard` is the one
that the editor starts with. Imports and compilations ask no more of a type than what `NodeSpec`
lists, so a catalog may hold descriptions of any kind, with functions of their own.
-/

namespace Workflow

/-- Whether a node stands for a state. -/
inductive Family where
  /-- Start nodes and error-catch nodes, which are no states. -/
  | special
  /-- Nodes that stand for one state each. -/
  | primitive
  deriving DecidableEq, Repr

namespace Family

/-- The families, in order. -/
def all : List Family := [special, primitive]

/-- The name of a family. -/
def name : Family → String
  | special => "special"
  | primitive => "primitive"

/-- The family with a given name. -/
def ofName? (name : String) : Option Family := all.find? (·.name = name)

end Family

/-- What is asked of the description of a type of nodes. -/
class NodeSpec (T : Type) where
  family : T → Family
  inputs : T → PortCount
  /-- The number of outputs of a new node. -/
  outputs : T → PortCount
  /-- Whether a new node waits for its form to be confirmed. -/
  requiresInit : T → Bool
  /-- The outputs that take more than one edge. -/
  fanOut : T → List Port
  /-- The form for the fields of a state, without its transitions. -/
  toForm : T → (id : String) → (fields : Fields) → Except CodecError Fields
  /-- The fields for the form of a state. -/
  ofForm : T → (id : String) → (form : Fields) → Except CodecError Fields
  /-- The port whose edge leads to an error-catch node. -/
  errorPort? : T → Option Port
  /-- The slot of a port. -/
  slot? : T → Port → Option TransitionSlot
  /-- The names in the fields with their ports, in port order. -/
  targets : T → Fields → List (Port × String)
  /-- The fields without transitions. -/
  strip : T → Fields → Fields
  /-- How many outputs a node with these fields has, where a new one has `least`. -/
  outputCount : T → (fields : Fields) → (least : PortCount) → PortCount

/-- A type of nodes, by the rules for its forms and its transitions. -/
structure NodeType where
  family : Family
  inputs : PortCount
  /-- The number of outputs of a new node. -/
  outputs : PortCount
  /-- Whether a new node waits for its form to be confirmed. -/
  requiresInit : Bool
  /-- The outputs that take more than one edge. -/
  fanOut : List Port
  form : FormRule
  transitions : TransitionRule
  deriving DecidableEq, Repr

namespace NodeType

/-- The name of the type of start nodes. -/
def startName : String := "start"

/-- The name of the type of error-catch nodes. -/
def catchName : String := "error-catch"

/-- A type of states with one input, and the outputs that empty fields need. -/
def primitive (transitions : TransitionRule) : NodeType where
  family := .primitive
  inputs := 1
  outputs := transitions.portsFor []
  requiresInit := true
  fanOut := []
  form := .standard
  transitions := transitions

/-- A type of nodes that are no states; they never wait for a confirmation. -/
def special (inputs outputs : PortCount) (transitions : TransitionRule) : NodeType where
  family := .special
  inputs := inputs
  outputs := outputs
  requiresInit := false
  fanOut := []
  form := .plain
  transitions := transitions

/-- The type with another rule for its forms. -/
def withForm (t : NodeType) (form : FormRule) : NodeType := { t with form }

/-- The type with one more output that takes more than one edge. -/
def withFanOut (t : NodeType) (p : Port) : NodeType :=
  if p ∈ t.fanOut then t else { t with fanOut := t.fanOut ++ [p] }

/-- Whether the nodes of a type stand for states. -/
def isPrimitive (t : NodeType) : Bool := t.family = .primitive

/-- The rules of a type answer what is asked of it. A form is made of any fields. -/
instance : NodeSpec NodeType where
  family := family
  inputs := inputs
  outputs := outputs
  requiresInit := requiresInit
  fanOut := fanOut
  toForm t _ fields := .ok (t.form.toForm fields)
  ofForm t := t.form.ofForm
  errorPort? t := t.transitions.errorPort?
  slot? t := t.transitions.slot?
  targets t := t.transitions.targets
  strip t := t.transitions.strip
  outputCount t := t.transitions.outputCount

theorem slot?_eq (t : NodeType) : NodeSpec.slot? t = t.transitions.slot? := rfl

end NodeType

/-- Node types by name. -/
structure Catalog (T : Type := NodeType) where
  entries : List (String × T)
  deriving DecidableEq, Repr

namespace Catalog

variable {T : Type}

/-- The catalog without types. -/
def empty : Catalog T := ⟨[]⟩

/-- The type with a given name. -/
def get? (c : Catalog T) (name : String) : Option T :=
  (c.entries.find? (·.1 = name)).map Prod.snd

/-- Whether there is a type with a given name. -/
def contains (c : Catalog T) (name : String) : Bool := (c.get? name).isSome

/-- Puts a type under a name, in place of the one that had it. -/
def insert (c : Catalog T) (name : String) (t : T) : Catalog T :=
  ⟨(name, t) :: c.entries.filter (·.1 ≠ name)⟩

/-- The number of types. -/
def size (c : Catalog T) : Nat := c.entries.length

/-- The names of the types, sorted. -/
def names (c : Catalog T) : List String :=
  (c.entries.map Prod.fst).mergeSort fun a b => decide (a ≤ b)

/-- The catalog of a list of types; of two with the same name the later one counts. -/
def ofList (entries : List (String × T)) : Catalog T :=
  entries.foldl (fun c e => c.insert e.1 e.2) empty

theorem get?_insert (c : Catalog T) (name other : String) (t : T) :
    (c.insert name t).get? other = if name = other then some t else c.get? other := by
  unfold get? insert
  by_cases h : name = other
  · simp [h]
  · rw [List.find?_cons_of_neg (by simpa using h), List.find?_filter, if_neg h]
    congr 2
    funext e
    grind

/-- The types whose only transform is the field of that name. -/
def plainNames : List String :=
  ["noop", "consumeEvent", "delay", "error", "eventAnd", "generateEvent", "getter", "setter",
    "validate"]

/-- The catalog that the editor starts with. -/
def standard : Catalog :=
  ofList <|
    [(NodeType.startName, .special 0 1 .entry),
     (NodeType.catchName, .special 1 1 .handlers)] ++
    plainNames.map (·, .primitive .single) ++
    [("action", (NodeType.primitive .single).withForm
        (.transforms [.field "transform", .nested "action" "input"])),
     ("switch", (NodeType.primitive .conditional).withForm
        (.transforms [.field "defaultTransform", .eachIn "conditions" "transform"])),
     ("eventXor", (NodeType.primitive .race).withForm
        (.transforms [.eachIn "events" "transform"])),
     ("foreach", (NodeType.primitive .single).withForm
        (.loop [.field "transform", .nested "action" "input"])),
     ("parallel", (NodeType.primitive .single).withForm
        (.transforms [.field "transform", .eachIn "actions" "input"]))]

example : standard.size = 16 := by decide
example : (standard.get? "switch").map NodeType.outputs = some 2 := by decide

end Catalog

end Workflow
