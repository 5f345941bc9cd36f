import Workflow.Json.Basic
import Workflow.Port

/-!
# Transitions in fields

A state names the states that follow it in its fields. A `TransitionSlot` is the place of one such
name; a `TransitionRule` says which slot each output port of a type stands for. The same rule turns
names into edges and edges into names.
-/

namespace Workflow

/-- A place for the name of a state. -/
inductive TransitionSlot where
  /-- The transition of a state. -/
  | transition
  /-- The transition of a conditional that no condition decides. -/
  | defaultTransition
  /-- The transition of an entry of a list; positions start at 0. -/
  | branch (list : String) (index : Nat)
  /-- No place: the error output leads to an error-catch node. -/
  | error
  /-- The entry state of the start block. -/
  | startState
  deriving DecidableEq, Repr

namespace TransitionSlot

/-- The key of a transition. -/
def transitionKey : String := "transition"

/-- The key of a slot that is a field of its own. -/
def key? : TransitionSlot → Option String
  | transition => some transitionKey
  | defaultTransition => some "defaultTransition"
  | startState => some "state"
  | branch .. | error => none

/-- The items of a list; none when there is no such list. -/
def itemsOf (fields : Fields) (list : String) : List Json :=
  ((fields.get? list).bind Json.arr?).getD []

/-- Changes the items of a list, if there is such a list. -/
def changeItems (f : List Json → List Json) (fields : Fields) (list : String) : Fields :=
  match fields.get? list with
  | some (.arr items) => fields.insert list (.arr (f items))
  | _ => fields

/-- The name in an entry of a list. -/
def entryName? (entry : Json) : Option String := do
  (← (← entry.obj?).get? transitionKey).str?

/-- An entry of a list without its name. -/
def clearEntry : Json → Json
  | .obj entry => .obj (Fields.erase entry transitionKey)
  | v => v

/-- The name in a slot. -/
def read (s : TransitionSlot) (fields : Fields) : Option String :=
  match s with
  | branch list index => (itemsOf fields list)[index]?.bind entryName?
  | s => do (← fields.get? (← s.key?)).str?

/-- The fields after a name was put into a slot, and whether there was a place for it. -/
def put (s : TransitionSlot) (fields : Fields) (name : String) : Fields × Bool :=
  match s with
  | branch list index =>
    match (itemsOf fields list)[index]? with
    | some (.obj entry) =>
      let named := Json.obj (Fields.insert entry transitionKey (.str name))
      (changeItems (·.set index named) fields list, true)
    | _ => (fields, false)
  | s =>
    match s.key? with
    | some key => (fields.insert key (.str name), true)
    | none => (fields, false)

/-- The fields with a name in a slot; nothing when there is no place for it. -/
def write (s : TransitionSlot) (fields : Fields) (name : String) : Option Fields :=
  match s.put fields name with
  | (written, true) => some written
  | (_, false) => none

/-- Removes what a slot holds. -/
def clear (s : TransitionSlot) (fields : Fields) : Fields :=
  match s with
  | branch list index => changeItems (·.modify index clearEntry) fields list
  | s =>
    match s.key? with
    | some key => fields.erase key
    | none => fields

theorem read_write_of_key {s : TransitionSlot} {key : String} (h : s.key? = some key)
    (fields : Fields) (name : String) :
    (s.write fields name).bind s.read = some name := by
  cases s with
  | branch => simp [key?] at h
  | error => simp [key?] at h
  | transition | defaultTransition | startState =>
    simp [write, put, read, key?, Fields.get?_insert_self, Json.str?]

end TransitionSlot

/-- Which slot each output port of a type stands for. -/
inductive TransitionRule where
  /-- One transition and an error output. -/
  | single
  /-- A default transition, an error output, and one transition for each condition. -/
  | conditional
  /-- An error output and one transition for each event. -/
  | race
  /-- One transition for each error handler. -/
  | handlers
  /-- The entry state. -/
  | entry
  deriving DecidableEq, Repr

namespace TransitionRule

/-- The slots of the first ports. -/
def fixed : TransitionRule → List TransitionSlot
  | single => [.transition, .error]
  | conditional => [.defaultTransition, .error]
  | race => [.error]
  | handlers => []
  | entry => [.startState]

/-- The list whose entries the other ports stand for. -/
def list? : TransitionRule → Option String
  | single => none
  | conditional => some "conditions"
  | race => some "events"
  | handlers => some "catch"
  | entry => none

/-- The slot of the port behind `i` others. -/
def slotAt? (r : TransitionRule) (i : Nat) : Option TransitionSlot :=
  match r.fixed[i]? with
  | some s => some s
  | none => r.list?.map (.branch · (i - r.fixed.length))

/-- The slot of a port. Whether a branch exists is only known from the fields. -/
def slot? (r : TransitionRule) (p : Port) : Option TransitionSlot :=
  match p.toNat with
  | 0 => none
  | i + 1 => r.slotAt? i

/-- The port whose edge leads to an error-catch node. -/
def errorPort? (r : TransitionRule) : Option Port :=
  (r.fixed.idxOf? .error).map fun i => UInt16.ofNat (i + 1)

/-- The entries that the other ports stand for. -/
def entries (r : TransitionRule) (fields : Fields) : List Json :=
  match r.list? with
  | some list => TransitionSlot.itemsOf fields list
  | none => []

/-- How many ports it takes to represent every transition in the fields. -/
def portsFor (r : TransitionRule) (fields : Fields) : PortCount :=
  PortCount.saturate (r.fixed.length + (r.entries fields).length)

/-- The ports for the fields with their slots, in port order. -/
def slots (r : TransitionRule) (fields : Fields) : List (Port × TransitionSlot) :=
  (Port.all (r.portsFor fields)).filterMap fun p => (r.slot? p).map (p, ·)

/-- What the slots hold, in port order. -/
def names (r : TransitionRule) (fields : Fields) : List (Option String) :=
  r.fixed.map (·.read fields) ++ (r.entries fields).map TransitionSlot.entryName?

/-- The names in the fields with their ports, in port order. -/
def targets (r : TransitionRule) (fields : Fields) : List (Port × String) :=
  ((Port.all (r.portsFor fields)).zip (r.names fields)).filterMap fun (p, name?) =>
    name?.map (p, ·)

/-- The fields with every slot cleared. -/
def strip (r : TransitionRule) (fields : Fields) : Fields :=
  let cleared := r.fixed.foldl (fun acc s => s.clear acc) fields
  match r.list? with
  | some list =>
    let n := (r.portsFor fields).toNat - r.fixed.length
    TransitionSlot.changeItems
      (fun items => (items.take n).map TransitionSlot.clearEntry ++ items.drop n) cleared list
  | none => cleared

/-- How many outputs a node with these fields has; never fewer than `least`. -/
def outputCount (r : TransitionRule) (fields : Fields) (least : PortCount) : PortCount :=
  max (r.portsFor fields) least

example : conditional.slot? 5 = some (.branch "conditions" 2) := by decide
example : race.errorPort? = some 1 := by decide
example : handlers.targets [("catch", .arr [.null, .obj [("transition", .str "a")]])]
    = [(2, "a")] := by decide
example : single.strip [("transition", .null), ("x", .null)] = [("x", .null)] := by decide

end TransitionRule

end Workflow
