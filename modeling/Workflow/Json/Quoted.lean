/-!
# Quoted strings

`quote` writes a string between double quotes with the fewest escapes; `scan` reads one back from
the text after the opening quote. An escape that names half of a surrogate pair is told apart from a
malformed one, because a reader that skips the string may pass over it.
-/

namespace Workflow.Json.Quoted

/-- The digit of a number below sixteen, in lower case. -/
def hexDigit (n : Nat) : Char := Nat.digitChar n

/-- The value of a hexadecimal digit of either case. -/
def hexValue? (c : Char) : Option Nat :=
  if '0' ≤ c ∧ c ≤ '9' then some (c.toNat - '0'.toNat)
  else if 'a' ≤ c ∧ c ≤ 'f' then some (c.toNat - 'a'.toNat + 10)
  else if 'A' ≤ c ∧ c ≤ 'F' then some (c.toNat - 'A'.toNat + 10)
  else none

/-- The value of four hexadecimal digits. -/
def hexWord? (a b c d : Char) : Option Nat := do
  let a ← hexValue? a
  let b ← hexValue? b
  let c ← hexValue? c
  let d ← hexValue? d
  return ((a * 16 + b) * 16 + c) * 16 + d

/-- The written form of one character: quote, backslash and the characters below the space are
escaped. -/
def escape (c : Char) : List Char :=
  match c with
  | '"' => ['\\', '"']
  | '\\' => ['\\', '\\']
  | '\n' => ['\\', 'n']
  | '\r' => ['\\', 'r']
  | '\t' => ['\\', 't']
  | '\x08' => ['\\', 'b']
  | '\x0c' => ['\\', 'f']
  | c =>
    if c.toNat < 32 then ['\\', 'u', '0', '0', hexDigit (c.toNat / 16), hexDigit (c.toNat % 16)]
    else [c]

/-- The characters of a string, escaped, between double quotes. -/
def quote (s : List Char) : List Char := '"' :: s.flatMap escape ++ ['"']

/-- What stands after an opening quote. -/
inductive Scan where
  /-- A string and the text after its closing quote. -/
  | closed (text rest : List Char)
  /-- A string with half of a surrogate pair, and the text after its closing quote. -/
  | unpaired (rest : List Char)
  /-- No string: it is not closed, holds a control character or an unknown escape. -/
  | broken
  deriving DecidableEq

namespace Scan

/-- Puts a character in front of the scanned string. -/
def push (c : Char) : Scan → Scan
  | closed text rest => closed (c :: text) rest
  | s => s

/-- Marks the scanned string as holding half of a surrogate pair. -/
def unpair : Scan → Scan
  | closed _ rest => unpaired rest
  | s => s

end Scan

/-- Whether a code unit is the first half of a surrogate pair. -/
def isHigh (n : Nat) : Bool := 0xD800 ≤ n && n < 0xDC00

/-- Whether a code unit is the second half of a surrogate pair. -/
def isLow (n : Nat) : Bool := 0xDC00 ≤ n && n < 0xE000

/-- The character that a surrogate pair stands for. -/
def pairChar (high low : Nat) : Char :=
  Char.ofNat ((high - 0xD800) * 0x400 + (low - 0xDC00) + 0x10000)

/-- The character of a one-letter escape. -/
def simpleEscape? : Char → Option Char
  | '"' => some '"'
  | '\\' => some '\\'
  | '/' => some '/'
  | 'b' => some '\x08'
  | 'f' => some '\x0c'
  | 'n' => some '\n'
  | 'r' => some '\r'
  | 't' => some '\t'
  | _ => none

/-- Marks the scanned string when the first half of a surrogate pair was left without its second. -/
def Scan.settle (pending : Option Nat) (s : Scan) : Scan :=
  if pending.isSome then s.unpair else s

/-- Reads a string from the text after its opening quote; `pending` is the first half of a surrogate
pair that stands directly before the text. -/
def scanFrom : Option Nat → List Char → Scan
  | _, [] => .broken
  | pending, '"' :: rest => (Scan.closed [] rest).settle pending
  | pending, '\\' :: 'u' :: a :: b :: c :: d :: rest =>
    match hexWord? a b c d with
    | none => .broken
    | some n =>
      if isHigh n then (scanFrom (some n) rest).settle pending
      else if isLow n then
        match pending with
        | some high => (scanFrom none rest).push (pairChar high n)
        | none => (scanFrom none rest).unpair
      else ((scanFrom none rest).push (Char.ofNat n)).settle pending
  | pending, '\\' :: e :: rest =>
    match simpleEscape? e with
    | some c => ((scanFrom none rest).push c).settle pending
    | none => .broken
  | pending, c :: rest =>
    if c.toNat < 32 ∨ c = '\\' then .broken else ((scanFrom none rest).push c).settle pending

/-- Reads a string from the text after its opening quote. -/
def scan (text : List Char) : Scan := scanFrom none text

/-- The string that a text quotes, when the text is one quoted string and nothing else. -/
def unquote? : List Char → Option (List Char)
  | '"' :: rest =>
    match scan rest with
    | .closed text [] => some text
    | _ => none
  | _ => none

example : quote "a\"\n\x01é".toList = "\"a\\\"\\n\\u0001é\"".toList := by decide
example : unquote? "\"\\ud83d\\ude00\\/\"".toList = some "😀/".toList := by decide
example : scan "\\ud83dx\"y".toList = .unpaired ['y'] := by decide
example : scan "\\udg00\"".toList = .broken := by decide
example : unquote? "\"a\" ".toList = none := by decide

end Workflow.Json.Quoted
