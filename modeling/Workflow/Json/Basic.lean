import Workflow.Number.Rounding

/-!
# JSON values

Values with ordered records. A record is a list of keyed values; the operations of `Fields` keep
keys apart, so that a repeated insertion changes the value and leaves the key in its place.
`Json.merged` restores that form in a value whose records may repeat a key.
-/

namespace Workflow

/-- A number: an integer, a finite 64-bit float, or a finite 32-bit float. Text is never read as a
32-bit float; coordinates are written as one. -/
inductive Number where
  | int (n : Int)
  | float (x : BinaryFloat)
  | single (x : BinaryFloat)
  deriving DecidableEq, Repr

/-- A JSON value. -/
inductive Json where
  | null
  | bool (b : Bool)
  | num (n : Number)
  | str (s : String)
  | arr (items : List Json)
  | obj (fields : List (String × Json))
  deriving Repr, Inhabited

/-- The fields of a record, in order. -/
abbrev Fields := List (String × Json)

namespace Json

mutual

/-- Equality of values is decidable. -/
def decEq : (a b : Json) → Decidable (a = b)
  | .null, b => match b with
    | .null => isTrue rfl
    | .bool _ | .num _ | .str _ | .arr _ | .obj _ => isFalse nofun
  | .bool x, b => match b with
    | .bool y => if h : x = y then isTrue (by rw [h]) else isFalse (by simpa using h)
    | .null | .num _ | .str _ | .arr _ | .obj _ => isFalse nofun
  | .num x, b => match b with
    | .num y => if h : x = y then isTrue (by rw [h]) else isFalse (by simpa using h)
    | .null | .bool _ | .str _ | .arr _ | .obj _ => isFalse nofun
  | .str x, b => match b with
    | .str y => if h : x = y then isTrue (by rw [h]) else isFalse (by simpa using h)
    | .null | .bool _ | .num _ | .arr _ | .obj _ => isFalse nofun
  | .arr xs, b => match b with
    | .arr ys => match decEqItems xs ys with
      | isTrue h => isTrue (by rw [h])
      | isFalse h => isFalse (by simpa using h)
    | .null | .bool _ | .num _ | .str _ | .obj _ => isFalse nofun
  | .obj xs, b => match b with
    | .obj ys => match decEqFields xs ys with
      | isTrue h => isTrue (by rw [h])
      | isFalse h => isFalse (by simpa using h)
    | .null | .bool _ | .num _ | .str _ | .arr _ => isFalse nofun

/-- Equality of lists of values is decidable. -/
def decEqItems : (a b : List Json) → Decidable (a = b)
  | [], [] => isTrue rfl
  | [], _ :: _ | _ :: _, [] => isFalse nofun
  | x :: xs, y :: ys => match decEq x y, decEqItems xs ys with
    | isTrue h, isTrue t => isTrue (by rw [h, t])
    | isFalse h, _ => isFalse (fun e => h (List.cons.inj e).1)
    | _, isFalse t => isFalse (fun e => t (List.cons.inj e).2)

/-- Equality of records is decidable. -/
def decEqFields : (a b : List (String × Json)) → Decidable (a = b)
  | [], [] => isTrue rfl
  | [], _ :: _ | _ :: _, [] => isFalse nofun
  | (k, x) :: xs, (l, y) :: ys =>
    if hk : k = l then match decEq x y, decEqFields xs ys with
      | isTrue h, isTrue t => isTrue (by rw [hk, h, t])
      | isFalse h, _ => isFalse (fun e => h (Prod.mk.inj (List.cons.inj e).1).2)
      | _, isFalse t => isFalse (fun e => t (List.cons.inj e).2)
    else isFalse (fun e => hk (Prod.mk.inj (List.cons.inj e).1).1)

end

instance : DecidableEq Json := decEq

/-- The text of a string value. -/
def str? : Json → Option String
  | .str s => some s
  | _ => none

/-- The items of an array. -/
def arr? : Json → Option (List Json)
  | .arr items => some items
  | _ => none

/-- The fields of a record. -/
def obj? : Json → Option Fields
  | .obj fields => some fields
  | _ => none

/-- The fields of a record; no fields for any other value. -/
def fieldsOf (v : Json) : Fields := v.obj?.getD []

/-- Whether the value is `null`, the empty string or the empty record. -/
def isBlank : Json → Bool
  | .null => true
  | .str s => s.isEmpty
  | .obj fields => fields.isEmpty
  | _ => false

mutual

/-- The nesting depth: a scalar has depth 0, a container one more than its deepest child. -/
def depth : Json → Nat
  | .arr items => 1 + depthItems items
  | .obj fields => 1 + depthFields fields
  | _ => 0

/-- The depth of the deepest item. -/
def depthItems : List Json → Nat
  | [] => 0
  | v :: rest => max v.depth (depthItems rest)

/-- The depth of the deepest field. -/
def depthFields : List (String × Json) → Nat
  | [] => 0
  | (_, v) :: rest => max v.depth (depthFields rest)

end

example : depth (.arr []) = 1 := by decide
example : depth (.obj [("a", .arr [.null]), ("b", .null)]) = 2 := by decide

end Json

namespace Fields

/-- The value under a key. -/
def get? : Fields → String → Option Json
  | [], _ => none
  | (k, v) :: rest, key => if k = key then some v else get? rest key

/-- Whether a key is present. -/
def contains (fields : Fields) (key : String) : Bool := (fields.get? key).isSome

/-- The keys, in order. -/
def keys (fields : Fields) : List String := fields.map Prod.fst

/-- Sets the value under a key: in place when the key is present, at the end otherwise. -/
def insert : Fields → String → Json → Fields
  | [], key, value => [(key, value)]
  | (k, v) :: rest, key, value =>
    if k = key then (k, value) :: rest else (k, v) :: insert rest key value

/-- Removes a key, keeping the order of the others. -/
def erase : Fields → String → Fields
  | [], _ => []
  | (k, v) :: rest, key => if k = key then rest else (k, v) :: erase rest key

/-- Inserts every entry of a list in turn. -/
def insertAll (fields : Fields) (entries : List (String × Json)) : Fields :=
  entries.foldl (fun acc e => acc.insert e.1 e.2) fields

/-- The record of a list of entries; a repeated key keeps its first place and its last value. -/
def ofEntries (entries : List (String × Json)) : Fields := insertAll [] entries

theorem get?_insert_self (fields : Fields) (key : String) (value : Json) :
    (fields.insert key value).get? key = some value := by
  induction fields with
  | nil => simp [insert, get?]
  | cons e rest ih => by_cases h : e.1 = key <;> simp [insert, get?, h, ih]

theorem get?_insert_of_ne (fields : Fields) {key other : String} (value : Json)
    (h : other ≠ key) : (fields.insert key value).get? other = fields.get? other := by
  induction fields with
  | nil => simp [insert, get?, h.symm]
  | cons e rest ih => by_cases hk : e.1 = key <;> grind [insert, get?]

theorem insert_of_get? {fields : Fields} {key : String} {value : Json}
    (h : fields.get? key = some value) : fields.insert key value = fields := by
  induction fields with
  | nil => simp [get?] at h
  | cons e rest ih => by_cases hk : e.1 = key <;> grind [insert, get?]

theorem insert_insert (fields : Fields) (key : String) (v w : Json) :
    (fields.insert key v).insert key w = fields.insert key w := by
  induction fields with
  | nil => simp [insert]
  | cons e rest ih => by_cases hk : e.1 = key <;> grind [insert]

theorem keys_insert (fields : Fields) (key : String) (value : Json) :
    (fields.insert key value).keys =
      if key ∈ fields.keys then fields.keys else fields.keys ++ [key] := by
  induction fields with
  | nil => simp [insert, keys]
  | cons e rest ih => by_cases hk : e.1 = key <;> grind [insert, keys]

example : ofEntries [("a", .null), ("b", .null), ("a", .bool true)]
    = [("a", .bool true), ("b", .null)] := by decide

end Fields

namespace Json

mutual

/-- The value with every record merged: a repeated key keeps its first place and its last value. -/
def merged : Json → Json
  | .arr items => .arr (mergedItems items)
  | .obj fields => .obj (mergedFields [] fields)
  | v => v

/-- Merges the records inside each item. -/
def mergedItems : List Json → List Json
  | [] => []
  | v :: rest => v.merged :: mergedItems rest

/-- Adds the entries of a record one by one. -/
def mergedFields (acc : Fields) : List (String × Json) → Fields
  | [] => acc
  | (k, v) :: rest => mergedFields (acc.insert k v.merged) rest

end

end Json

end Workflow
