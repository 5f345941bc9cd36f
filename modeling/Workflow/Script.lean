import Workflow.Json.Quoted
import Workflow.Text.Blank

/-!
# Embedded scripts

A script is stored in a document as `js(body)`. Written on one line between double quotes it is hard
to read, so `Script.expandLine` turns a line whose whole value is such a scalar into a literal block
that reads back as the same string; a script with characters that a block cannot hold stays quoted.
-/

namespace Workflow.Script

/-- The mark in front of a script. -/
def opening : List Char := "js(".toList

/-- The mark behind a script. -/
def closing : List Char := [')']

/-- A script between its marks. -/
def wrapChars (body : List Char) : List Char := opening ++ body ++ closing

/-- The text without a given start, if it has it. -/
def afterStart? (start : List Char) (text : List Char) : Option (List Char) :=
  if start.isPrefixOf text then some (text.drop start.length) else none

/-- The text without a given end, if it has it. -/
def beforeEnd? (ending : List Char) (text : List Char) : Option (List Char) :=
  if ending.isSuffixOf text then some (text.take (text.length - ending.length)) else none

/-- The body of a script between its marks; blanks behind the closing mark do not count. -/
def unwrapChars? (text : List Char) : Option (List Char) :=
  (afterStart? opening (Text.trimEnd text)).bind (beforeEnd? closing)

/-- A script between its marks. -/
def wrap (body : String) : String := String.ofList (wrapChars body.toList)

/-- The body of a script between its marks, if the text is one. -/
def unwrap? (text : String) : Option String := (unwrapChars? text.toList).map String.ofList

/-- Whether a text is a script between its marks. -/
def isWrapped (text : String) : Bool := (unwrapChars? text.toList).isSome

/-- How many more columns than its key a block is indented, unless told otherwise. -/
def defaultIndent : Nat := 2

/-- Whether a literal block holds a character as it is. -/
def fitsBlock (c : Char) : Bool :=
  c = '\n' || c = '\t' ||
    !(c = '\u2028' || c = '\u2029' || c = '\ufeff' || Text.isControl c)

/-- The text behind the dashes of list items at its front, and the spaces around them. -/
def afterDashes : Nat → List Char → List Char
  | 0, text => text
  | fuel + 1, text =>
    match text.dropWhile (· = ' ') with
    | '-' :: ' ' :: rest => afterDashes fuel rest
    | rest => rest

/-- Whether a scalar right behind this text is a whole value: nothing but dashes, or a plain key
with a colon, stand in front of it. -/
def startsValue (before : List Char) : Bool :=
  match afterDashes before.length before with
  | [] => true
  | rest =>
    match beforeEnd? [':', ' '] rest with
    | some key =>
      !key.isEmpty && !key.any fun c => c = ':' || c = '"' || c = '\'' || c = '#'
    | none => false

/-- The column of the key in front of a value; dashes count as indentation. -/
def keyColumn : List Char → Nat
  | '-' :: ' ' :: rest => 2 + keyColumn rest
  | ' ' :: rest => 1 + keyColumn rest
  | _ => 0

/-- Splits a text at the first place where `mark` stands; the mark begins the second part. -/
def splitAt? (mark : List Char) : List Char → Option (List Char × List Char)
  | [] => if mark.isEmpty then some ([], []) else none
  | c :: rest =>
    if mark.isPrefixOf (c :: rest) then some ([], c :: rest)
    else (splitAt? mark rest).map fun (before, after) => (c :: before, after)

/-- The lines of a text, without their line feeds; there is always at least one. -/
def lines : List Char → List (List Char)
  | [] => [[]]
  | c :: rest =>
    if c = '\n' then [] :: lines rest
    else match lines rest with
      | l :: ls => (c :: l) :: ls
      | [] => [[c]]

/-- A literal block of a script behind `before`, its lines indented by `column` spaces. -/
def blockOf (before : List Char) (column : Nat) (script : List Char) : List Char :=
  before ++ ['|', '-'] ++ (lines script).flatMap fun l =>
    if l.isEmpty then ['\n'] else '\n' :: List.replicate column ' ' ++ l

/-- A line as a literal block, if its whole value is a quoted script that fits one. -/
def expandLineChars (line : List Char) (indent : Nat) : Option (List Char) := do
  let (before, quoted) ← splitAt? ('"' :: opening) line
  if !startsValue before then none
  else
    let script ← Json.Quoted.unquote? (Text.trimEnd quoted)
    if opening.isPrefixOf script && closing.isSuffixOf script && script.all fitsBlock then
      some (blockOf before (keyColumn before + indent) script)
    else none

/-- A line as a literal block, if its whole value is a quoted script that fits one. -/
def expandLine (line : String) (indent : Nat) : Option String :=
  (expandLineChars line.toList indent).map String.ofList

/-- The lines of a text, each with the line feed that ends it; the empty text has none. -/
def linesWithEnds : List Char → List (List Char)
  | [] => []
  | c :: rest =>
    if c = '\n' then [c] :: linesWithEnds rest
    else match linesWithEnds rest with
      | l :: ls => (c :: l) :: ls
      | [] => [[c]]

/-- The line without the line feed that ends it, and that line feed. -/
def cutEnd (line : List Char) : List Char × List Char :=
  match beforeEnd? ['\n'] line with
  | some content => (content, ['\n'])
  | none => (line, [])

/-- One line of a text, expanded where that is possible. -/
def expandOne (indent : Nat) (line : List Char) : List Char :=
  let (content, ending) := cutEnd line
  match expandLineChars content indent with
  | some block => block ++ ending
  | none => line

/-- A text with every quoted script expanded where that is possible. -/
def expandBlocks (text : String) (indent : Nat) : String :=
  String.ofList ((linesWithEnds text.toList).flatMap (expandOne indent))

theorem linesWithEnds_flatten (text : List Char) : (linesWithEnds text).flatten = text := by
  induction text with
  | nil => rfl
  | cons c rest ih =>
    rw [linesWithEnds]
    split
    · simp [ih]
    · split <;> simp_all

example : unwrap? "js(a\nb)\n" = some "a\nb" := by decide +kernel
example : unwrap? "js(missing close" = none := by decide +kernel
example : expandBlocks "- t: \"js(a\\nb)\"\nu: \"js(x\"\n" 2
    = "- t: |-\n    js(a\n    b)\nu: \"js(x\"\n" := by decide +kernel
example : expandLine "x: \"js(a\\r)\"" 2 = none := by decide +kernel

end Workflow.Script
