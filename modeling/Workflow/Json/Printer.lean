import Workflow.Json.Basic
import Workflow.Json.Quoted
import Workflow.Number.Notation

/-!
# Writing JSON text

`Json.compact` writes a value without blanks, `Json.pretty` with one entry a line, indented by two
columns a level; an empty container stays on one line in both.
-/

namespace Workflow

namespace Number

/-- Floats in JSON text: powers of ten from the sixteenth on and below the fifth negative one, with
a plus sign. -/
def jsonLayout : FloatNotation := ⟨some (-4, 16), true, .toEven⟩

/-- 32-bit floats in JSON text: powers of ten from the thirteenth on and below the sixth negative
one. -/
def jsonSingleLayout : FloatNotation := ⟨some (-5, 13), true, .toEven⟩

/-- The JSON text of a number. -/
def write : Number → List Char
  | int n =>
    if n < 0 then '-' :: FloatNotation.digitsOf n.natAbs else FloatNotation.digitsOf n.natAbs
  | float x => jsonLayout.float .double x
  | single x => jsonSingleLayout.float .single x

end Number

namespace Json

/-- The JSON text of a string. -/
def quoted (s : String) : List Char := Quoted.quote s.toList

/-- The text of a scalar. -/
def scalarChars : Json → List Char
  | .null => "null".toList
  | .bool true => "true".toList
  | .bool false => "false".toList
  | .num n => n.write
  | .str s => quoted s
  | .arr _ => "[]".toList
  | .obj _ => ['\x7b', '\x7d']

mutual

/-- The characters of a value without blanks. -/
def compactChars : Json → List Char
  | .arr items => '[' :: compactItems items ++ [']']
  | .obj fields => '\x7b' :: compactFields fields ++ ['\x7d']
  | v => v.scalarChars

/-- The items of an array, with commas between them. -/
def compactItems : List Json → List Char
  | [] => []
  | [v] => v.compactChars
  | v :: rest => v.compactChars ++ ',' :: compactItems rest

/-- The fields of a record, with commas between them. -/
def compactFields : List (String × Json) → List Char
  | [] => []
  | [(k, v)] => quoted k ++ ':' :: v.compactChars
  | (k, v) :: rest => quoted k ++ ':' :: v.compactChars ++ ',' :: compactFields rest

end

/-- A new line at a nesting level. -/
def breakAt (level : Nat) : List Char := '\n' :: List.replicate (2 * level) ' '

mutual

/-- The characters of a value with one entry a line; `level` is the depth at which it stands. -/
def prettyChars (level : Nat) : Json → List Char
  | .arr (v :: rest) => '[' :: prettyItems (level + 1) (v :: rest) ++ breakAt level ++ [']']
  | .obj (e :: rest) =>
    '\x7b' :: prettyFields (level + 1) (e :: rest) ++ breakAt level ++ ['\x7d']
  | v => v.scalarChars

/-- The items of an array, each on a line of its own. -/
def prettyItems (level : Nat) : List Json → List Char
  | [] => []
  | [v] => breakAt level ++ v.prettyChars level
  | v :: rest => breakAt level ++ v.prettyChars level ++ ',' :: prettyItems level rest

/-- The fields of a record, each on a line of its own. -/
def prettyFields (level : Nat) : List (String × Json) → List Char
  | [] => []
  | [(k, v)] => breakAt level ++ quoted k ++ ':' :: ' ' :: v.prettyChars level
  | (k, v) :: rest =>
    breakAt level ++ quoted k ++ ':' :: ' ' :: v.prettyChars level ++ ',' ::
      prettyFields level rest

end

/-- The text of a value without blanks. -/
def compact (v : Json) : String := String.ofList v.compactChars

/-- The text of a value with one entry a line. -/
def pretty (v : Json) : String := String.ofList (v.prettyChars 0)

/-- The text of a string as a JSON literal. -/
def literal (s : String) : String := String.ofList (quoted s)

example : (Json.arr [.num (.int (-3)), .obj [("a", .null), ("b", .arr [])]]).compactChars
    = "[-3,\x7b\"a\":null,\"b\":[]\x7d]".toList := by decide +kernel

end Json

end Workflow
