import Workflow.Json.Numeral
import Workflow.Json.Quoted
import Workflow.Record.Fault

/-!
# JSON text as far as it is well formed

`Raw.ofText` turns any text into a tree. What the text spells badly becomes a leaf or an unfinished
container at its place, so that a reader which walks the tree in the order of the text meets a
malformed part exactly where the text has it, and may report an earlier fault of another kind first.
Parts that are too deep, too large or hold half of a surrogate pair cannot be read, but a reader
that skips them passes over.
-/

namespace Workflow.Json

/-- How a container ends in the text. -/
inductive Ending where
  /-- With its closing bracket. -/
  | closed
  /-- The rest cannot be read; a reader that skips the container passes over it if `skippable`. -/
  | broken (skippable : Bool)
  /-- What stands where the next key is expected is no string. -/
  | unnamed (found : Found)
  deriving DecidableEq, Repr

namespace Ending

/-- Whether a reader that skips a container with this ending passes over it. -/
def skippable : Ending → Bool
  | closed => true
  | broken s => s
  | unnamed _ => false

end Ending

/-- A JSON text as a tree. -/
inductive Raw where
  | null
  | bool (b : Bool)
  | num (n : Number)
  | str (s : String)
  | arr (items : List Raw) (ending : Ending)
  | obj (fields : List (String × Raw)) (ending : Ending)
  /-- A part that cannot be read, and whether it can be skipped. -/
  | unreadable (skippable : Bool)
  deriving Repr, Inhabited

namespace Raw

mutual

/-- Whether a reader that skips the part passes over it. -/
def skippable : Raw → Bool
  | .arr items ending => skippableItems items && ending.skippable
  | .obj fields ending => skippableFields fields && ending.skippable
  | .unreadable s => s
  | _ => true

/-- Whether all items can be skipped. -/
def skippableItems : List Raw → Bool
  | [] => true
  | r :: rest => r.skippable && skippableItems rest

/-- Whether all fields can be skipped. -/
def skippableFields : List (String × Raw) → Bool
  | [] => true
  | (_, r) :: rest => r.skippable && skippableFields rest

end

mutual

/-- The value that the part spells, unless some of it cannot be read. A repeated key keeps its first
place and its last value. -/
def toJson? : Raw → Option Json
  | .null => some .null
  | .bool b => some (.bool b)
  | .num n => some (.num n)
  | .str s => some (.str s)
  | .arr items .closed => (toItems? items).map .arr
  | .obj fields .closed => (toFields? [] fields).map .obj
  | .arr .. | .obj .. | .unreadable _ => none

/-- The values of all items. -/
def toItems? : List Raw → Option (List Json)
  | [] => some []
  | r :: rest => do
    let v ← r.toJson?
    let vs ← toItems? rest
    return v :: vs

/-- Adds the values of all fields to a record. -/
def toFields? (acc : Fields) : List (String × Raw) → Option Fields
  | [] => some acc
  | (k, r) :: rest => do
    let v ← r.toJson?
    toFields? (acc.insert k v) rest

end

/-- What a complaint says was found; nothing when the part cannot be read at all. -/
def found? : Raw → Option Found
  | .null => some .null
  | .bool b => some (.bool b)
  | .num (.int n) => some (.int n)
  | .num (.float x) | .num (.single x) => some (.float (.finite x))
  | .str s => some (.str s)
  | .arr .. => some .seq
  | .obj .. => some .map
  | .unreadable _ => none

/-- The blanks of JSON text. -/
def isBlank (c : Char) : Bool := c = ' ' || c = '\n' || c = '\t' || c = '\r'

/-- The text without the blanks at its front. -/
def skipBlanks : List Char → List Char
  | [] => []
  | c :: rest => if isBlank c then skipBlanks rest else c :: rest

/-- A value and the text after it; no text when the value never ends. -/
abbrev Parsed := Raw × Option (List Char)

/-- The value of a literal word whose first letter has been read. -/
def word (spelling : List Char) (value : Raw) (text : List Char) : Parsed :=
  if spelling.isPrefixOf text then (value, some (text.drop spelling.length))
  else (.unreadable false, none)

/-- A scalar at the front of a text. -/
def scalar (c : Char) (rest : List Char) : Parsed :=
  match c with
  | 'n' => word "ull".toList .null rest
  | 't' => word "rue".toList (.bool true) rest
  | 'f' => word "alse".toList (.bool false) rest
  | '"' =>
    match Quoted.scan rest with
    | .closed text rest => (.str (String.ofList text), some rest)
    | .unpaired rest => (.unreadable true, some rest)
    | .broken => (.unreadable false, none)
  | c =>
    match Numeral.scan (c :: rest) with
    | .read n rest => (.num n, some rest)
    | .overflow rest => (.unreadable true, some rest)
    | .broken => (.unreadable false, none)

/-- A container that stands inside `depth` others; deeper than `limit` it cannot be read. -/
def nested (limit depth : Nat) (r : Raw) : Raw :=
  if depth < limit then r else .unreadable r.skippable

mutual

/-- The value at the front of a text, inside `depth` containers. -/
def parseValue (limit : Nat) : Nat → Nat → List Char → Parsed
  | 0, _, _ => (.unreadable false, none)
  | fuel + 1, depth, text =>
    match skipBlanks text with
    | [] => (.unreadable false, none)
    | '[' :: rest =>
      match skipBlanks rest with
      | ']' :: rest => (nested limit depth (.arr [] .closed), some rest)
      | rest =>
        let (items, ending, rest) := parseItems limit fuel (depth + 1) rest
        (nested limit depth (.arr items ending), rest)
    | '\x7b' :: rest =>
      match skipBlanks rest with
      | '\x7d' :: rest => (nested limit depth (.obj [] .closed), some rest)
      | rest =>
        let (fields, ending, rest) := parseFields limit fuel (depth + 1) rest
        (nested limit depth (.obj fields ending), rest)
    | c :: rest => scalar c rest

/-- The items of an array up to its closing bracket; there is at least one. -/
def parseItems (limit : Nat) :
    Nat → Nat → List Char → List Raw × Ending × Option (List Char)
  | 0, _, _ => ([], .broken false, none)
  | fuel + 1, depth, text =>
    match parseValue limit fuel depth text with
    | (r, none) => ([r], .broken false, none)
    | (r, some rest) =>
      match skipBlanks rest with
      | ']' :: rest => ([r], .closed, some rest)
      | ',' :: rest =>
        let (items, ending, rest) := parseItems limit fuel depth rest
        (r :: items, ending, rest)
      | _ => ([r], .broken false, none)

/-- The fields of a record up to its closing bracket; there is at least one. -/
def parseFields (limit : Nat) :
    Nat → Nat → List Char → List (String × Raw) × Ending × Option (List Char)
  | 0, _, _ => ([], .broken false, none)
  | fuel + 1, depth, text =>
    match skipBlanks text with
    | '"' :: rest =>
      match Quoted.scan rest with
      | .closed key rest =>
        let (fields, ending, rest) := parseField limit fuel depth (String.ofList key) rest
        (fields, ending, rest)
      | .unpaired rest =>
        let (fields, ending, rest) := parseField limit fuel depth "" rest
        ([], .broken (skippableFields fields && ending.skippable), rest)
      | .broken => ([], .broken false, none)
    | text =>
      match (parseValue limit fuel 0 text).1.found? with
      | some found => ([], .unnamed found, none)
      | none => ([], .broken false, none)

/-- The fields of a record from the text after a key on. -/
def parseField (limit : Nat) :
    Nat → Nat → String → List Char → List (String × Raw) × Ending × Option (List Char)
  | 0, _, key, _ => ([(key, .unreadable false)], .broken false, none)
  | fuel + 1, depth, key, text =>
    match skipBlanks text with
    | ':' :: rest =>
      match parseValue limit fuel depth rest with
      | (r, none) => ([(key, r)], .broken false, none)
      | (r, some rest) =>
        match skipBlanks rest with
        | '\x7d' :: rest => ([(key, r)], .closed, some rest)
        | ',' :: rest =>
          let (fields, ending, rest) := parseFields limit fuel depth rest
          ((key, r) :: fields, ending, rest)
        | _ => ([(key, r)], .broken false, none)
    | _ => ([(key, .unreadable false)], .broken false, none)

end

/-- The tree of a text, and whether nothing but blanks follows its value. Containers nested deeper
than `limit` cannot be read. -/
def ofText (limit : Nat) (text : String) : Raw × Bool :=
  let chars := text.toList
  match parseValue limit (2 * chars.length + 2) 0 chars with
  | (r, some rest) => (r, (skipBlanks rest).isEmpty)
  | (r, none) => (r, false)

end Raw

/-- How many containers may stand inside one another in a text. -/
def depthLimit : Nat := 127

/-- The value of a text. -/
def ofText? (text : String) : Option Json :=
  match Raw.ofText depthLimit text with
  | (r, true) => r.toJson?
  | (_, false) => none

end Workflow.Json
