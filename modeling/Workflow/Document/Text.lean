import Workflow.Document.Basic
import Workflow.Script
import Workflow.Yaml.Printer
import Workflow.Yaml.Source

/-!
# Documents as YAML text

`Document.yamlText` writes a document with the scripts of its states as literal blocks. The scripts
are put aside first, each behind a placeholder that YAML writes as it is, and every line with a
placeholder is then written again with its script; `Script.expandLine` turns it into a block where a
block can hold it. Scripts outside the states stay as YAML writes them.
-/

namespace Workflow.Document

/-- The start of every placeholder. -/
def placeholderStart : List Char := "__flowmap_script_".toList

/-- The end of every placeholder. -/
def placeholderEnd : List Char := "__".toList

/-- The placeholder of the script with a given number. -/
def placeholder (n : Nat) : String :=
  String.ofList (placeholderStart ++ Nat.toDigits 10 n ++ placeholderEnd)

mutual

/-- The value with every script replaced by its placeholder, and the scripts in order; the first one
has number `n`. -/
def stash (n : Nat) : Json → Json × List String
  | .str text => if Script.isWrapped text then (.str (placeholder n), [text]) else (.str text, [])
  | .arr items =>
    let (items, scripts) := stashItems n items
    (.arr items, scripts)
  | .obj fields =>
    let (fields, scripts) := stashFields n fields
    (.obj fields, scripts)
  | v => (v, [])

/-- The items of an array with their scripts replaced. -/
def stashItems (n : Nat) : List Json → List Json × List String
  | [] => ([], [])
  | v :: rest =>
    let (v, first) := stash n v
    let (rest, others) := stashItems (n + first.length) rest
    (v :: rest, first ++ others)

/-- The fields of a record with their scripts replaced. -/
def stashFields (n : Nat) : List (String × Json) → List (String × Json) × List String
  | [] => ([], [])
  | (k, v) :: rest =>
    let (v, first) := stash n v
    let (rest, others) := stashFields (n + first.length) rest
    ((k, v) :: rest, first ++ others)

end

/-- The number that decimal digits spell, with an optional plus sign in front. -/
def scriptNumber? (text : List Char) : Option Nat :=
  let digits := match text with
    | '+' :: rest => rest
    | _ => text
  if digits.isEmpty || !digits.all Char.isDigit then none
  else some (digits.foldl (fun n c => 10 * n + (c.toNat - '0'.toNat)) 0)

/-- The text before the first placeholder of a line, its script, and the text behind it. -/
def findScript? (scripts : List String) (line : List Char) :
    Option (List Char × String × List Char) := do
  let (before, rest) ← Script.splitAt? placeholderStart line
  let (number, rest) ← Script.splitAt? placeholderEnd (rest.drop placeholderStart.length)
  let script ← scripts[← scriptNumber? number]?
  return (before, script, rest.drop placeholderEnd.length)

/-- A line with the script of its first placeholder in place. -/
def spliceLine (scripts : List String) (indent : Nat) (line : List Char) : List Char :=
  match findScript? scripts line with
  | none => line
  | some (before, script, rest) =>
    Script.expandOne indent (before ++ Json.quoted script ++ rest)

/-- A document as a value whose states have placeholders for their scripts, and the scripts. -/
def stashed (d : Document) : Json × List String :=
  match d.toJson.merged with
  | .obj fields =>
    match Fields.get? fields "states" with
    | some states =>
      let (states, scripts) := stash 0 states
      (.obj (Fields.insert fields "states" states), scripts)
    | none => (.obj fields, [])
  | v => (v, [])

/-- The YAML text of a document; the lines of a script are indented `indent` columns more than its
key. -/
def yamlText (d : Document) (indent : Nat) : String :=
  let (value, scripts) := d.stashed
  String.ofList <|
    (Script.linesWithEnds (Yaml.print value).toList).flatMap (spliceLine scripts indent)

/-- Reads the YAML text of a document. -/
def ofYamlText (text : String) : Except Complaint Document := Yaml.readText read text

end Workflow.Document
