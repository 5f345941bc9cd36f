import Workflow.Number.Notation
import Workflow.Text.Hidden

/-!
# Faults of shape

What can be wrong with data that is read into a record. A `Fault` is a cause; `Fault.message` words
it in the manner of a data format, and a `Complaint` adds the place in the data where it was met.
-/

namespace Workflow

/-- What stands in the data where something else was expected. -/
inductive Found where
  | null
  | bool (b : Bool)
  | int (n : Int)
  | float (x : ExtendedFloat)
  | str (s : String)
  | seq
  | map
  /-- A value with a tag of its own. -/
  | tagged
  deriving DecidableEq, Repr

/-- Why data cannot be read. -/
inductive Fault where
  /-- The text is not well formed. -/
  | malformed
  | invalidType (found : Found) (expected : String)
  | invalidValue (found : Found) (expected : String)
  | invalidLength (length : Nat) (expected : String)
  | missingField (name : String)
  | duplicateField (name : String)
  | unknownVariant (name : String) (variants : List String)
  /-- A node identifier is not spelled as one. -/
  | badIdentifier
  /-- A tagged value stands where only plain data can be kept. -/
  | taggedValue
  deriving DecidableEq, Repr

/-- How a data format words what was found. -/
structure Wording where
  /-- The name of the null value. -/
  null : String
  /-- The layout of finite floats. -/
  floats : FloatNotation

namespace Found

/-- A name between backquotes. -/
def backquoted (s : String) : String := "`" ++ s ++ "`"

/-- One character of a quoted string in a message; what does not show on its own is escaped by its
number. -/
def escapeChar (c : Char) : List Char :=
  match c with
  | '"' => ['\\', '"']
  | '\\' => ['\\', '\\']
  | '\n' => ['\\', 'n']
  | '\r' => ['\\', 'r']
  | '\t' => ['\\', 't']
  | '\x00' => ['\\', '0']
  | c =>
    if Text.isHidden c then '\\' :: 'u' :: '\x7b' :: Nat.toDigits 16 c.toNat ++ ['\x7d'] else [c]

/-- A string as a message quotes it. -/
def quotedText (s : String) : String :=
  String.ofList ('"' :: s.toList.flatMap escapeChar ++ ['"'])

example : quotedText "e\u0301\x07" = "\"e\\u\x7b301\x7d\\u\x7b7\x7d\"" := by decide +kernel

/-- The text of a float in a message. -/
def floatText (w : Wording) : ExtendedFloat → String
  | .finite x => String.ofList (w.floats.float .double x)
  | .infinite negative => if negative then "-inf" else "inf"
  | .nan => "NaN"

/-- The wording of what was found. -/
def text (w : Wording) : Found → String
  | null => w.null
  | bool b => "boolean " ++ backquoted (toString b)
  | int n => "integer " ++ backquoted (toString n)
  | float x => "floating point " ++ backquoted (floatText w x)
  | str s => "string " ++ quotedText s
  | seq => "sequence"
  | map => "map"
  | tagged => "enum"

end Found

namespace Fault

/-- The alternatives of an enumeration in a message. -/
def alternatives : List String → String
  | [] => "there are no variants"
  | [a] => "expected " ++ Found.backquoted a
  | [a, b] => "expected " ++ Found.backquoted a ++ " or " ++ Found.backquoted b
  | names => "expected one of " ++ ", ".intercalate (names.map Found.backquoted)

/-- The message of a fault. -/
def message (w : Wording) : Fault → String
  | malformed => "malformed text"
  | invalidType found expected => "invalid type: " ++ found.text w ++ ", expected " ++ expected
  | invalidValue found expected => "invalid value: " ++ found.text w ++ ", expected " ++ expected
  | invalidLength n expected => "invalid length " ++ toString n ++ ", expected " ++ expected
  | missingField name => "missing field " ++ Found.backquoted name
  | duplicateField name => "duplicate field " ++ Found.backquoted name
  | unknownVariant name variants =>
    "unknown variant " ++ Found.backquoted name ++ ", " ++ alternatives variants
  | badIdentifier => "malformed identifier"
  | taggedValue => "untagged and internally tagged enums do not support enum input"

end Fault

/-- A fault with the place in the data where it was met; there is no place at the top, nor in
formats that do not report it. -/
structure Complaint where
  place : Option String
  fault : Fault
  deriving DecidableEq, Repr

namespace Complaint

/-- The message of a complaint: the place, if there is one, and the fault. -/
def message (w : Wording) (c : Complaint) : String :=
  match c.place with
  | none => c.fault.message w
  | some place => place ++ ": " ++ c.fault.message w

end Complaint

end Workflow
