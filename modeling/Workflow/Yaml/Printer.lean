import Workflow.Json.Printer
import Workflow.Yaml.Style

/-!
# Writing YAML text

`Yaml.print` writes a value as a block: one field or item a line, records indented by two columns, a
list under a field not indented, empty containers in brackets.
-/

namespace Workflow.Yaml

/-- The YAML text of a float: as in JSON, but without a plus sign before a power of ten. -/
def floatLayout : FloatNotation := ⟨some (-4, 16), false, .toEven⟩

/-- The YAML text of a number. -/
def numberChars : Number → List Char
  | .int n => Number.write (.int n)
  | .float x => floatLayout.float .double x
  | .single x => floatLayout.float .single x

/-- The longest key, in bytes, that is followed by its value on the same line. -/
def longestKey : Nat := 128

/-- Whether a key can be followed by its value on the same line. -/
def isSimpleKey (key : String) : Bool :=
  key.utf8ByteSize ≤ longestKey && !key.toList.any isBreak

/-- Writes `head` in front of the first line and indents the others by `n` columns. -/
def behind (head : List Char) (n : Nat) : List Line → List Line
  | [] => []
  | l :: rest => { l with text := head ++ l.text } :: rest.map (Line.indent n)

/-- The lines of a scalar or an empty container. -/
def scalarLines : Json → List Line
  | .null => [.of "null".toList]
  | .bool true => [.of "true".toList]
  | .bool false => [.of "false".toList]
  | .num n => [.of (numberChars n)]
  | .str s => styled (styleOf false s) s
  | .arr _ => [.of "[]".toList]
  | .obj _ => [.of ['\x7b', '\x7d']]

/-- A key with a value that starts on the same line. -/
def keyed (key : String) (value : List Line) : List Line :=
  behind ((styled (styleOf true key) key).flatMap Line.text ++ [':', ' ']) 2 value

/-- A key with a value that starts on the next line. -/
def headed (key : String) (value : List Line) : List Line :=
  .of ((styled (styleOf true key) key).flatMap Line.text ++ [':']) :: value

/-- A key that has lines of its own, and its value. -/
def explicit (key : String) (value : List Line) : List Line :=
  behind ['?', ' '] 2 (scalarLines (.str key)) ++ behind [':', ' '] 2 value

mutual

/-- The lines of a value; all but the first are relative to the column of the first. -/
def lines : Json → List Line
  | .arr (v :: rest) => itemLines (v :: rest)
  | .obj (e :: rest) => fieldLines (e :: rest)
  | v => scalarLines v

/-- The lines of list items. -/
def itemLines : List Json → List Line
  | [] => []
  | v :: rest => behind ['-', ' '] 2 (lines v) ++ itemLines rest

/-- The lines of record fields. -/
def fieldLines : List (String × Json) → List Line
  | [] => []
  | (key, v) :: rest =>
    (if isSimpleKey key then
      match v with
      | .arr (_ :: _) => headed key (lines v)
      | .obj (_ :: _) => headed key ((lines v).map (Line.indent 2))
      | v => keyed key (scalarLines v)
    else explicit key (lines v)) ++ fieldLines rest

end

/-- The lines of a whole text; the lines of a scalar are indented below the first. -/
def document (v : Json) : List Line :=
  match v with
  | .arr (_ :: _) | .obj (_ :: _) => lines v
  | v => behind [] 2 (lines v)

/-- The YAML text of a value. -/
def print (v : Json) : String :=
  String.ofList ((document v).flatMap fun l => l.text ++ [l.ending])

example : print (.obj [("a", .arr [.num (.int 1), .obj [("b", .null), ("c", .arr [])]])])
    = "a:\n- 1\n- b: null\n  c: []\n" := by decide +kernel
example : print (.obj [("k", .obj [("x\ny", .str "g"), ("t", .str "a\nb")])])
    = "k:\n  ? |-\n    x\n    y\n  : g\n  t: |-\n    a\n    b\n" := by decide +kernel
example : print (.arr [.str "\u2028", .str "007", .str "it's", .str ""])
    = "- '\u2028  '\n- '007'\n- it's\n- ''\n" := by decide +kernel

end Workflow.Yaml
