import Workflow.Yaml.Chars
import Workflow.Yaml.Scalar

/-!
# How a string is written in YAML

A string is written plain where that reads back as the string, else between single quotes, else
between double quotes; a string with a line feed is written as a literal block where that is
possible. `Line` is the unit of layout: a scalar is a first line and further lines that the place of
the scalar indents.
-/

namespace Workflow.Yaml

/-- A line of text and the character that ends it. -/
structure Line where
  text : List Char
  ending : Char
  deriving DecidableEq, Repr

namespace Line

/-- A line that ends with a line feed. -/
def of (text : List Char) : Line := ⟨text, '\n'⟩

/-- The line moved right by `n` columns; an empty line stays empty. -/
def indent (n : Nat) (l : Line) : Line :=
  if l.text.isEmpty then l else { l with text := List.replicate n ' ' ++ l.text }

end Line

/-- The ways to write a scalar. -/
inductive Style where
  | plain
  | single
  | double
  | literal
  deriving DecidableEq, Repr

/-- What a string holds that restricts how it can be written. -/
structure Features where
  /-- It starts with or holds characters that mean something else in a block. -/
  indicator : Bool
  /-- It holds a line break. -/
  lineBreak : Bool
  /-- It holds a character that is never written as it is. -/
  special : Bool
  leadingSpace : Bool
  trailingSpace : Bool
  leadingBreak : Bool
  trailingBreak : Bool
  /-- A space follows a line break. -/
  breakSpace : Bool
  /-- A line break follows a space. -/
  spaceBreak : Bool

namespace Features

/-- The characters that mean something else at the start of a plain scalar. -/
def leadingIndicators : List Char :=
  ['#', ',', '[', ']', '\x7b', '\x7d', '&', '*', '!', '|', '>', '\'', '"', '%', '@', '\x60']

/-- Whether a text starts with the mark of a document's start or end. -/
def isDocumentMark : List Char → Bool
  | '-' :: '-' :: '-' :: _ => true
  | '.' :: '.' :: '.' :: _ => true
  | _ => false

/-- Whether the first character keeps the text from being plain. -/
def indicatorAtStart : List Char → Bool
  | [] => false
  | c :: rest =>
    leadingIndicators.contains c || ((c = '?' || c = ':' || c = '-') && atBlank rest)

/-- Whether a character after `before` keeps the text from being plain: a colon before a blank, or a
number sign after one. -/
def indicatorAfter (before : Char) : List Char → Bool
  | [] => false
  | c :: rest =>
    (c = ':' && atBlank rest) || (c = '#' && (isSpace before || isBreak before)) ||
      indicatorAfter c rest

/-- Whether a character of the first kind stands directly before one of the second kind. -/
def adjacent (first second : Char → Bool) : List Char → Bool
  | [] => false
  | c :: rest =>
    (match rest with | d :: _ => first c && second d | [] => false) || adjacent first second rest

/-- The features of a text. -/
def ofText (text : List Char) : Features :=
  { indicator := isDocumentMark text || indicatorAtStart text ||
      (match text with | c :: rest => indicatorAfter c rest | [] => false)
    lineBreak := text.any isBreak
    special := text.any (!isPrintable ·)
    leadingSpace := text.head? = some ' '
    trailingSpace := text.getLast? = some ' '
    leadingBreak := text.head?.any isBreak
    trailingBreak := text.getLast?.any isBreak
    breakSpace := adjacent isBreak (· = ' ') text
    spaceBreak := adjacent (· = ' ') isBreak text }

/-- Whether the text can be written plain. -/
def allowsPlain (f : Features) : Bool :=
  !(f.indicator || f.lineBreak || f.special || f.leadingSpace || f.trailingSpace ||
    f.leadingBreak || f.trailingBreak || f.breakSpace || f.spaceBreak)

/-- Whether the text can be written between single quotes. -/
def allowsSingle (f : Features) : Bool := !(f.breakSpace || f.spaceBreak || f.special)

/-- Whether the text can be written as a block. -/
def allowsBlock (f : Features) : Bool := !(f.trailingSpace || f.spaceBreak || f.special)

end Features

/-- Whether a string without quotes would be read as something else. -/
def needsQuotes (s : String) : Bool :=
  Scalar.isPadded s.toList ||
    match Scalar.resolve s with
    | .str _ => false
    | _ => true

/-- The style of a string; `inLine` when it has to stay on one line. -/
def styleOf (inLine : Bool) (s : String) : Style :=
  let f := Features.ofText s.toList
  if s.toList.contains '\n' then
    if f.allowsBlock && !inLine then .literal else .double
  else if !needsQuotes s && f.allowsPlain then .plain
  else if f.allowsSingle && !(inLine && f.lineBreak) then .single
  else .double

/-- The lines of a text; a break at its end starts no further line. -/
def splitLines (text : List Char) : List Line :=
  go [] text
where
  /-- The lines of a text whose first line starts with the reversed characters of `acc`. -/
  go (acc : List Char) : List Char → List Line
    | [] => if acc.isEmpty then [] else [.of acc.reverse]
    | c :: rest => if isBreak c then ⟨acc.reverse, c⟩ :: go [] rest else go (c :: acc) rest

/-- A hexadecimal numeral of a fixed width, in upper case. -/
def hexNumeral : Nat → Nat → List Char
  | 0, _ => []
  | width + 1, n => hexNumeral width (n / 16) ++ [(Nat.digitChar (n % 16)).toUpper]

/-- The escape letter of a character that has one. -/
def escapeLetter? (c : Char) : Option Char :=
  match c with
  | '\x00' => some '0'
  | '\x07' => some 'a'
  | '\x08' => some 'b'
  | '\t' => some 't'
  | '\n' => some 'n'
  | '\x0b' => some 'v'
  | '\x0c' => some 'f'
  | '\r' => some 'r'
  | '\x1b' => some 'e'
  | '"' => some '"'
  | '\\' => some '\\'
  | '\u0085' => some 'N'
  | '\u00a0' => some '_'
  | '\u2028' => some 'L'
  | '\u2029' => some 'P'
  | _ => none

/-- One character between double quotes. -/
def escape (c : Char) : List Char :=
  if isPrintable c && !isBreak c && c ≠ '"' && c ≠ '\\' then [c]
  else match escapeLetter? c with
    | some letter => ['\\', letter]
    | none =>
      if c.toNat < 0x100 then '\\' :: 'x' :: hexNumeral 2 c.toNat
      else if c.toNat < 0x10000 then '\\' :: 'u' :: hexNumeral 4 c.toNat
      else '\\' :: 'U' :: hexNumeral 8 c.toNat

/-- A text between double quotes. -/
def doubleQuoted (text : List Char) : List Char := '"' :: text.flatMap escape ++ ['"']

/-- A text between single quotes; every line but the first is indented by its place. -/
def singleQuoted (text : List Char) : List Line :=
  go ['\''] text
where
  /-- The lines of the quoted text whose current line starts with the reversed characters of
  `acc`. -/
  go (acc : List Char) : List Char → List Line
    | [] => [.of ('\'' :: acc).reverse]
    | c :: rest =>
      if isBreak c then ⟨acc.reverse, c⟩ :: go [] rest
      else if c = '\'' then go ('\'' :: '\'' :: acc) rest
      else go (c :: acc) rest

/-- The head of a literal block: the mark, the indentation if the text starts with a blank, and what
happens to the breaks at its end. -/
def literalHead (text : List Char) : List Char :=
  let hint := if text.head?.any fun c => c = ' ' || isBreak c then ['2'] else []
  let chomp :=
    if !text.getLast?.any isBreak then ['-']
    else if text.dropLast.isEmpty || text.dropLast.getLast?.any isBreak then ['+']
    else []
  '|' :: hint ++ chomp

/-- The lines of a string in a style. -/
def styled (style : Style) (s : String) : List Line :=
  match style with
  | .plain => [.of s.toList]
  | .single => singleQuoted s.toList
  | .double => [.of (doubleQuoted s.toList)]
  | .literal => .of (literalHead s.toList) :: splitLines s.toList

end Workflow.Yaml
