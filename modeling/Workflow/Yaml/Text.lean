import Workflow.Yaml.Cursor
import Workflow.Json.Quoted

/-!
# The text of scalars

How the characters of a plain, quoted or block scalar are read: line breaks inside plain and quoted
scalars fold into spaces, blocks keep or fold their lines, double quotes allow escapes. Each reader
takes the place where the scalar starts and gives its text and the place after it; nothing when the
scalar is malformed. Their `fuel` bounds the number of steps; more than there are characters left is
always enough.
-/

namespace Workflow.Yaml.Text

/-- The blanks between two words of a scalar. -/
structure Gap where
  /-- Spaces before the first line break, the last one first. -/
  spaces : List Char
  /-- Whether there is a line break. -/
  broken : Bool
  /-- The first line break. -/
  first : List Char
  /-- The line breaks after the first, the last one first. -/
  others : List Char

namespace Gap

/-- No blanks. -/
def empty : Gap := ⟨[], false, [], []⟩

/-- The blanks after an escaped line break. -/
def escaped : Gap := ⟨[], true, [], []⟩

/-- What the blanks read as, reversed: one line break is a space, several are all but the first. -/
def reversedText (g : Gap) : List Char :=
  if g.broken then
    if g.first.head? = some '\n' then if g.others.isEmpty then [' '] else g.others
    else g.others ++ g.first
  else g.spaces

end Gap

/-- Reads the blanks at a place. With `margin`, a tab left of that column on a further line is
malformed. -/
def gap (margin : Option Nat) : Nat → Gap → Cursor → Option (Gap × Cursor)
  | 0, g, c => some (g, c)
  | fuel + 1, g, c =>
    if c.atSpace then
      if g.broken then
        if c.shows '\t' && margin.any (c.column < ·) then none
        else gap margin fuel g (c.skip 1)
      else gap margin fuel { g with spaces := c.rest.take 1 ++ g.spaces } (c.skip 1)
    else if c.atBreak then
      if g.broken then gap margin fuel { g with others := c.breakText ++ g.others } c.skipBreak
      else gap margin fuel { g with spaces := [], broken := true, first := c.breakText } c.skipBreak
    else some (g, c)

/-- The value of hexadecimal digits. -/
def hex? (digits : List Char) : Option Nat :=
  digits.foldlM (fun n d => do return 16 * n + (← Json.Quoted.hexValue? d)) 0

/-- The character of a numeric escape. -/
def escapeNumber? (width : Nat) (c : Cursor) : Option (Char × Cursor) :=
  let digits := c.rest.take width
  if digits.length < width then none
  else do
    let n ← hex? digits
    if (0xD800 ≤ n ∧ n ≤ 0xDFFF) ∨ 0x10FFFF < n then none
    else return (Char.ofNat n, c.skip width)

/-- The character of an escape whose backslash has been read. -/
def escape? (c : Cursor) : Option (Char × Cursor) :=
  match c.rest with
  | [] => none
  | ch :: _ =>
    let next := c.skip 1
    match ch with
    | '0' => some ('\x00', next)
    | 'a' => some ('\x07', next)
    | 'b' => some ('\x08', next)
    | 't' | '\t' => some ('\t', next)
    | 'n' => some ('\n', next)
    | 'v' => some ('\x0b', next)
    | 'f' => some ('\x0c', next)
    | 'r' => some ('\r', next)
    | 'e' => some ('\x1b', next)
    | ' ' => some (' ', next)
    | '"' => some ('"', next)
    | '/' => some ('/', next)
    | '\\' => some ('\\', next)
    | 'N' => some ('\u0085', next)
    | '_' => some ('\u00a0', next)
    | 'L' => some ('\u2028', next)
    | 'P' => some ('\u2029', next)
    | 'x' => escapeNumber? 2 next
    | 'u' => escapeNumber? 4 next
    | 'U' => escapeNumber? 8 next
    | _ => none

/-- Reads the characters of a quoted scalar up to a blank or its closing quote, in front of the
reversed characters of `acc`; also tells whether an escaped line break ended them. -/
def quotedWord (single : Bool) : Nat → List Char → Cursor → Option (List Char × Bool × Cursor)
  | 0, _, _ => none
  | fuel + 1, acc, c =>
    match c.rest with
    | [] => some (acc, false, c)
    | ch :: rest =>
      if isSpace ch || isBreak ch then some (acc, false, c)
      else if single then
        if ch = '\'' then
          if rest.head? = some '\'' then quotedWord single fuel ('\'' :: acc) (c.skip 2)
          else some (acc, false, c)
        else quotedWord single fuel (ch :: acc) (c.skip 1)
      else if ch = '"' then some (acc, false, c)
      else if ch = '\\' then
        if rest.head?.any isBreak then some (acc, true, (c.skip 1).skipBreak)
        else do
          let (e, next) ← escape? (c.skip 1)
          quotedWord single fuel (e :: acc) next
      else quotedWord single fuel (ch :: acc) (c.skip 1)

/-- Reads a quoted scalar after its opening quote. -/
def quotedFrom (single : Bool) : Nat → List Char → Cursor → Option (List Char × Cursor)
  | 0, _, _ => none
  | fuel + 1, acc, c =>
    if c.atDocumentMark then none
    else do
      let (acc, escaped, c) ← quotedWord single (fuel + 1) acc c
      if c.rest.isEmpty then none
      else if !escaped && c.shows (if single then '\'' else '"') then return (acc.reverse, c.skip 1)
      else
        let (g, c) ← gap none (fuel + 1) (if escaped then .escaped else .empty) c
        quotedFrom single fuel (g.reversedText ++ acc) c

/-- Reads a quoted scalar. -/
def quoted (fuel : Nat) (single : Bool) (c : Cursor) : Option (List Char × Cursor) :=
  quotedFrom single fuel [] (c.skip 1)

/-- Whether a character separates items inside brackets. -/
def isFlowMark (ch : Char) : Bool :=
  ch = ',' || ch = '[' || ch = ']' || ch = '\x7b' || ch = '\x7d'

/-- Reads the characters of a plain scalar up to a blank or a mark that ends it, in front of the
reversed characters of `acc`; `pending` are the blanks before the first of them. -/
def plainWord (inFlow : Bool) : Nat → Gap → List Char → Cursor → Option (Gap × List Char × Cursor)
  | 0, _, _, _ => none
  | fuel + 1, pending, acc, c =>
    match c.rest with
    | [] => some (pending, acc, c)
    | ch :: rest =>
      if isSpace ch || isBreak ch then some (pending, acc, c)
      else if inFlow && ch = ':' && rest.head?.any (fun d => isFlowMark d || d = '?') then none
      else if (ch = ':' && atBlank rest) || (inFlow && isFlowMark ch) then some (pending, acc, c)
      else plainWord inFlow fuel .empty (ch :: (pending.reversedText ++ acc)) (c.skip 1)

/-- Reads a plain scalar whose lines stand at column `margin` or further right, unless it stands in
brackets. Also tells whether line breaks follow its last word. -/
def plainFrom (inFlow : Bool) (margin : Nat) :
    Nat → Gap → List Char → Cursor → Option (List Char × Bool × Cursor)
  | 0, _, _, _ => none
  | fuel + 1, pending, acc, c =>
    if c.atDocumentMark || c.shows '#' then some (acc.reverse, pending.broken, c)
    else do
      let (pending, acc, c) ← plainWord inFlow (fuel + 1) pending acc c
      if !(c.atSpace || c.atBreak) then return (acc.reverse, pending.broken, c)
      else
        let (g, c) ← gap (some margin) (fuel + 1) .empty c
        if !inFlow && c.column < margin then return (acc.reverse, g.broken, c)
        else plainFrom inFlow margin fuel g acc c

/-- Reads a plain scalar. -/
def plain (fuel : Nat) (inFlow : Bool) (margin : Nat) (c : Cursor) :
    Option (List Char × Bool × Cursor) :=
  plainFrom inFlow margin fuel .empty [] c

/-- What happens to the line breaks at the end of a block. -/
inductive Chomp where
  | strip
  | clip
  | keep
  deriving DecidableEq

/-- The head of a block after its mark: indentation and treatment of the breaks at the end, in
either order, then blanks and a comment up to the end of the line. -/
def blockHead (c : Cursor) : Option (Option Nat × Chomp × Cursor) := do
  let chompOf (c : Cursor) : Option (Chomp × Cursor) :=
    if c.shows '+' then some (.keep, c.skip 1)
    else if c.shows '-' then some (.strip, c.skip 1)
    else none
  let digitOf (c : Cursor) : Option (Nat × Cursor) :=
    match c.rest with
    | ch :: _ => if '0' ≤ ch ∧ ch ≤ '9' then some (ch.toNat - '0'.toNat, c.skip 1) else none
    | [] => none
  let (step, chomp, c) :=
    match chompOf c with
    | some (chomp, c) =>
      match digitOf c with
      | some (n, c) => (some n, chomp, c)
      | none => (none, chomp, c)
    | none =>
      match digitOf c with
      | some (n, c) =>
        match chompOf c with
        | some (chomp, c) => (some n, chomp, c)
        | none => (some n, .clip, c)
      | none => (none, .clip, c)
  if step = some 0 then none
  else
    let c := c.skipWhile isSpace
    let c := if c.shows '#' then c.skipWhile (!isBreak ·) else c
    if c.atBreakOrEnd then return (step, chomp, c.skipBreak) else none

/-- Reads the blank lines at a place of a block, in front of the reversed line breaks `breaks`.
`indent` is the column of the block's lines, 0 while it is unknown; the furthest column that was
reached is reported. -/
def blankLines (indent : Nat) :
    Nat → Nat → List Char → Cursor → Option (Nat × List Char × Cursor)
  | 0, furthest, breaks, c => some (furthest, breaks, c)
  | fuel + 1, furthest, breaks, c =>
    let spaces := (c.run (· = ' ')).length
    let c := c.skip (if indent = 0 then spaces else min spaces (indent - c.column))
    let furthest := max furthest c.column
    if (indent = 0 || c.column < indent) && c.shows '\t' then none
    else if c.atBreak then blankLines indent fuel furthest (c.breakText ++ breaks) c.skipBreak
    else some (furthest, breaks, c)

/-- Reads the blank lines of a block and settles its indentation, at least `least`. -/
def settleIndent (fuel least indent : Nat) (c : Cursor) : Option (Nat × List Char × Cursor) := do
  let (furthest, breaks, c) ← blankLines indent fuel 0 [] c
  return (if indent = 0 then max furthest least else indent, breaks.reverse, c)

/-- Reads the lines of a block. `acc` holds the reversed text so far, `first` and `others` the line
breaks after it, and `blank` whether its last line starts with a blank. -/
def blockLines (fold : Bool) (chomp : Chomp) (least : Nat) :
    Nat → (indent : Nat) → (acc first others : List Char) → (blank : Bool) → Cursor →
      Option (List Char × Cursor)
  | 0, _, _, _, _, _, _ => none
  | fuel + 1, indent, acc, first, others, blank, c =>
    if c.column = indent && !c.rest.isEmpty then
      let startsBlank := c.atSpace
      let folded := fold && first.head? = some '\n' && !blank && !startsBlank
      let lead := if folded then if others.isEmpty then [' '] else [] else first
      let line := c.run (!isBreak ·)
      let c := c.skipWhile (!isBreak ·)
      do
        let (indent, others', c') ← settleIndent (fuel + 1) least indent c.skipBreak
        blockLines fold chomp least fuel indent
          (line.reverse ++ (lead ++ others).reverse ++ acc) c.breakText others' startsBlank c'
    else
      let tail := match chomp with
        | .strip => []
        | .clip => first
        | .keep => first ++ others
      some ((tail.reverse ++ acc).reverse, c)

/-- Reads a block whose parent is at column `parent`, or outside of all blocks. -/
def block (fuel : Nat) (fold : Bool) (parent : Option Nat) (c : Cursor) :
    Option (List Char × Cursor) := do
  let (step, chomp, c) ← blockHead (c.skip 1)
  let least := match parent with
    | some n => max (n + 1) 1
    | none => 1
  let indent := match step with
    | some n => parent.getD 0 + n
    | none => 0
  let (indent, others, c) ← settleIndent fuel least indent c
  blockLines fold chomp least fuel indent [] [] others false c

end Workflow.Yaml.Text
