import Workflow.Yaml.Chars

/-!
# A place in a YAML text

A `Cursor` is the rest of a text together with the line and column at which it starts and the number
of bytes in front of it.
-/

namespace Workflow.Yaml

/-- A place in a text. -/
structure Cursor where
  rest : List Char
  /-- The number of bytes in front of the place. -/
  offset : Nat
  line : Nat
  column : Nat
  deriving DecidableEq, Repr

namespace Cursor

/-- The start of a text. -/
def start (text : List Char) : Cursor := ⟨text, 0, 0, 0⟩

/-- How many bytes characters take. -/
def byteCount (text : List Char) : Nat := text.foldl (fun n ch => n + ch.utf8Size) 0

/-- The place `n` characters further on the same line. -/
def skip (c : Cursor) (n : Nat) : Cursor :=
  { c with
    rest := c.rest.drop n
    offset := c.offset + byteCount (c.rest.take n)
    column := c.column + n }

/-- The place after the characters that satisfy `p`, none of which breaks the line. -/
def skipWhile (p : Char → Bool) (c : Cursor) : Cursor := c.skip (c.rest.takeWhile p).length

/-- The characters at this place that satisfy `p`. -/
def run (p : Char → Bool) (c : Cursor) : List Char := c.rest.takeWhile p

/-- The place after a line break, if there is one here. -/
def skipBreak (c : Cursor) : Cursor :=
  match c.rest with
  | '\r' :: '\n' :: rest => ⟨rest, c.offset + 2, c.line + 1, 0⟩
  | ch :: rest => if isBreak ch then ⟨rest, c.offset + ch.utf8Size, c.line + 1, 0⟩ else c
  | [] => c

/-- What the line break at this place reads as: the separators stand for themselves, all others for
a line feed. -/
def breakText (c : Cursor) : List Char :=
  match c.rest with
  | ch :: _ => if ch = '\u2028' || ch = '\u2029' then [ch] else if isBreak ch then ['\n'] else []
  | [] => []

/-- Whether a line breaks here. -/
def atBreak (c : Cursor) : Bool := c.rest.head?.any isBreak

/-- Whether a line breaks or the text ends here. -/
def atBreakOrEnd (c : Cursor) : Bool := c.rest.isEmpty || c.atBreak

/-- Whether a space or a tab stands here. -/
def atSpace (c : Cursor) : Bool := c.rest.head?.any isSpace

/-- Whether the given character stands here. -/
def shows (c : Cursor) (ch : Char) : Bool := c.rest.head? = some ch

/-- Whether a mark of the start or end of a document stands here. -/
def atDocumentMark (c : Cursor) : Bool :=
  c.column = 0 &&
    match c.rest with
    | '-' :: '-' :: '-' :: rest => atBlank rest
    | '.' :: '.' :: '.' :: rest => atBlank rest
    | _ => false

end Cursor

end Workflow.Yaml
