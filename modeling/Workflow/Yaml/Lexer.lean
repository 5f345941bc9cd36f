import Workflow.Yaml.Text
import Workflow.Yaml.Token

/-!
# From text to tokens

`Token.ofText?` splits a YAML text into tokens. A simple key is only recognised by the colon behind
it, so the place of every scalar or bracket that may turn out to be one is remembered, and its key
token is inserted there later. Indentation is tracked as a stack of columns; a step to the right
opens a block, a step to the left closes blocks.
-/

namespace Workflow.Yaml

/-- A place that may turn out to be the start of a simple key. -/
structure KeyCandidate where
  /-- Whether the text is malformed unless a key starts here. -/
  required : Bool
  /-- The number of tokens before it. -/
  position : Nat
  /-- The number of bytes before it. -/
  offset : Nat
  line : Nat
  column : Nat
  deriving DecidableEq

/-- The state of the lexer. -/
structure Lexer where
  cursor : Cursor
  /-- The tokens so far, the last first. -/
  tokens : List Token
  /-- The number of tokens so far. -/
  count : Nat
  /-- The key candidate of the block level or bracket the lexer is in. -/
  candidate : Option KeyCandidate
  /-- The key candidates of the enclosing ones, the innermost first. -/
  outer : List (Option KeyCandidate)
  /-- The column of the current block; none outside of all blocks. -/
  indent : Option Nat
  /-- The columns of the enclosing blocks, the innermost first. -/
  indents : List (Option Nat)
  /-- How many brackets are open. -/
  flowLevel : Nat
  /-- Whether a simple key may start here. -/
  keyAllowed : Bool

namespace Lexer

/-- Before the first token. -/
def start (text : List Char) : Lexer :=
  { cursor := .start text, tokens := [], count := 0, candidate := none, outer := [], indent := none
    indents := [], flowLevel := 0, keyAllowed := true }

/-- Whether the lexer is inside brackets. -/
def inFlow (l : Lexer) : Bool := 0 < l.flowLevel

/-- Appends a token. -/
def push (t : Token) (l : Lexer) : Lexer := { l with tokens := t :: l.tokens, count := l.count + 1 }

/-- Inserts a token after the first `position` tokens. -/
def insertAt (position : Nat) (t : Token) (l : Lexer) : Lexer :=
  let later := l.count - position
  { l with tokens := l.tokens.take later ++ t :: l.tokens.drop later, count := l.count + 1 }

/-- Moves on by `n` characters and appends a token. -/
def take (n : Nat) (t : Token) (l : Lexer) : Lexer :=
  ({ l with cursor := l.cursor.skip n }).push t

/-- Whether a column lies left of the current block. -/
def isLeftOf (column : Option Nat) (indent : Option Nat) : Bool :=
  match column, indent with
  | _, none => false
  | none, some _ => true
  | some c, some i => c < i

/-- Closes the blocks that a column lies left of; no column lies left of all. -/
def closeBlocks (column : Option Nat) (l : Lexer) : Lexer :=
  if l.inFlow then l else go l l.indents
where
  /-- Closes blocks as long as the column lies left of the current one. -/
  go (l : Lexer) : List (Option Nat) → Lexer
    | [] => l
    | outer :: rest =>
      if isLeftOf column l.indent then
        go ({ l with indent := outer, indents := rest }.push .blockEnd) rest
      else l

/-- Opens a block at a column right of the current one; its token goes behind the first `position`
tokens. -/
def openBlock (column position : Nat) (t : Token) (l : Lexer) : Lexer :=
  if l.inFlow then l
  else if l.indent.all (· < column) then
    { l with indent := some column, indents := l.indent :: l.indents }.insertAt position t
  else l

/-- Gives up the key candidate; malformed when it was required. -/
def dropCandidate (l : Lexer) : Option Lexer :=
  if l.candidate.any (·.required) then none else some { l with candidate := none }

/-- The longest simple key, in bytes. -/
def longestSimpleKey : Nat := 1024

/-- Whether a candidate can no longer be a key: a key stays on one line and is not too long. -/
def isStale (l : Lexer) (k : KeyCandidate) : Bool :=
  k.line < l.cursor.line || k.offset + longestSimpleKey < l.cursor.offset

/-- Gives up the candidate when it can no longer be a key; malformed when it was required. Those of
enclosing brackets have their turn when the bracket is closed. -/
def dropStale (l : Lexer) : Option Lexer :=
  if l.candidate.any l.isStale then l.dropCandidate else some l

/-- Remembers this place as a key candidate, if a key may start here. -/
def saveCandidate (l : Lexer) : Option Lexer :=
  if l.keyAllowed then do
    let c := l.cursor
    let l ← l.dropCandidate
    let k : KeyCandidate :=
      { required := !l.inFlow && l.indent = some c.column, position := l.count
        offset := c.offset, line := c.line, column := c.column }
    return { l with candidate := some k }
  else some l

/-- Moves on to the next token: over spaces, comments, line breaks, and a byte order mark at the
start of a line; a tab counts as a space except where it could indent a block. -/
def toNext : Nat → Lexer → Lexer
  | 0, l => l
  | fuel + 1, l =>
    let c := l.cursor
    let c := if c.column = 0 && c.shows byteOrderMark then c.skip 1 else c
    let c := c.skipWhile fun ch => ch = ' ' || ((l.inFlow || !l.keyAllowed) && ch = '\t')
    let c := if c.shows '#' then c.skipWhile (!isBreak ·) else c
    if c.atBreak then
      toNext fuel { l with cursor := c.skipBreak, keyAllowed := l.keyAllowed || !l.inFlow }
    else { l with cursor := c }

/-- A decimal number of at most nine digits. -/
def versionNumber? (c : Cursor) : Option (Nat × Cursor) :=
  let digits := c.run fun ch => '0' ≤ ch && ch ≤ '9'
  if digits.isEmpty || 9 < digits.length then none
  else some (digits.foldl (fun n d => 10 * n + (d.toNat - '0'.toNat)) 0, c.skip digits.length)

/-- The handle of a tag: an exclamation mark, or a word between two. A directive needs the second
mark unless the handle is the mark alone. -/
def tagHandle? (directive : Bool) (c : Cursor) : Option (List Char × Cursor) :=
  if !c.shows '!' then none
  else
    let c := c.skip 1
    let word := c.run isWordChar
    let c := c.skip word.length
    if c.shows '!' then some ('!' :: word ++ ['!'], c.skip 1)
    else if directive && !word.isEmpty then none
    else some ('!' :: word, c)

/-- The byte of a percent escape at a place. -/
def escapedByte? (c : Cursor) : Option (UInt8 × Cursor) :=
  match c.rest with
  | '%' :: a :: b :: _ => (Text.hex? [a, b]).map fun n => (n.toUInt8, c.skip 3)
  | _ => none

/-- How many bytes follow the first byte of a character. -/
def followersOf? (first : UInt8) : Option Nat :=
  if first < 0x80 then some 0
  else if first < 0xC0 then none
  else if first < 0xE0 then some 1
  else if first < 0xF0 then some 2
  else if first < 0xF8 then some 3
  else none

/-- The following bytes of a character as percent escapes. -/
def escapedFollowers? : Nat → Cursor → Option (List UInt8 × Cursor)
  | 0, c => some ([], c)
  | n + 1, c => do
    let (byte, c) ← escapedByte? c
    if byte < 0x80 || 0xC0 ≤ byte then none
    else
      let (bytes, c) ← escapedFollowers? n c
      return (byte :: bytes, c)

/-- The bytes of one character as percent escapes. Only the pattern of the bytes is checked; they
need not be the encoding of a character. -/
def escapedChar? (c : Cursor) : Option (List UInt8 × Cursor) := do
  let (first, c) ← escapedByte? c
  let (bytes, c) ← escapedFollowers? (← followersOf? first) c
  return (first :: bytes, c)

/-- Whether a character may stand in a tag; `whole` when the tag is written in full. -/
def isTagChar (whole : Bool) (ch : Char) : Bool :=
  isWordChar ch || ";/?:@&=+$.!~*'()".toList.contains ch ||
    (whole && (ch = ',' || ch = '[' || ch = ']'))

/-- The bytes of characters. -/
def bytesOf (text : List Char) : List UInt8 := (String.ofList text).toUTF8.toList

/-- The bytes of a tag up to the first character that may not stand in one. -/
def tagBytes (whole : Bool) : Nat → Cursor → Option (List UInt8 × Cursor)
  | 0, _ => none
  | fuel + 1, c =>
    let run := c.run (isTagChar whole)
    let c := c.skip run.length
    if c.shows '%' then do
      let (bytes, c) ← escapedChar? c
      let (more, c) ← tagBytes whole fuel c
      return (bytesOf run ++ bytes ++ more, c)
    else some (bytesOf run, c)

/-- What counts of the bytes of a tag: a zero byte ends them. -/
def cutAtZero (bytes : List UInt8) : List UInt8 := bytes.takeWhile (· ≠ 0)

/-- The tag at a place, as a handle and a suffix. -/
def tag? (inFlow : Bool) (c : Cursor) : Option (Token × Cursor) := do
  let (t, c) ← match c.rest with
    | '!' :: '<' :: _ => do
      let (suffix, c) ← tagBytes true (c.rest.length + 1) (c.skip 2)
      if suffix.isEmpty || !c.shows '>' then none
      else some (Token.tag "" (cutAtZero suffix), c.skip 1)
    | _ => do
      let (handle, c) ← tagHandle? false c
      let (suffix, c) ← tagBytes false (c.rest.length + 1) c
      if 2 ≤ handle.length && handle.getLast? = some '!' then
        if suffix.isEmpty then none
        else some (Token.tag (String.ofList handle) (cutAtZero suffix), c)
      else
        let suffix := cutAtZero (bytesOf (handle.drop 1) ++ suffix)
        if suffix.isEmpty then some (Token.tag "" (bytesOf ['!']), c)
        else some (Token.tag "!" suffix, c)
  if atBlank c.rest || (inFlow && c.shows ',') then return (t, c) else none

/-- The directive at a place. -/
def directive? (c : Cursor) : Option (Token × Cursor) := do
  let c := c.skip 1
  let name := c.run isWordChar
  let c := c.skip name.length
  if name.isEmpty || !atBlank c.rest then none
  else
    let (t, c) ←
      if name = "YAML".toList then do
        let (major, c) ← versionNumber? (c.skipWhile isSpace)
        if !c.shows '.' then none
        else
          let (minor, c) ← versionNumber? (c.skip 1)
          some (Token.versionDirective major minor, c)
      else if name = "TAG".toList then do
        let (handle, c) ← tagHandle? true (c.skipWhile isSpace)
        if !c.atSpace then none
        else
          let (replacement, c) ← tagBytes true (c.rest.length + 1) (c.skipWhile isSpace)
          if replacement.isEmpty || !atBlank c.rest then none
          else some (Token.tagDirective (String.ofList handle) (cutAtZero replacement), c)
      else none
    let c := c.skipWhile isSpace
    let c := if c.shows '#' then c.skipWhile (!isBreak ·) else c
    if c.atBreakOrEnd then return (t, c.skipBreak) else none

/-- The name of an anchor or alias at a place. -/
def anchorName? (c : Cursor) : Option (String × Cursor) :=
  let c := c.skip 1
  let name := c.run isWordChar
  let c := c.skip name.length
  if name.isEmpty then none
  else if atBlank c.rest || c.rest.head?.any "?:,]\x7d%@\x60".toList.contains then
    some (String.ofList name, c)
  else none

/-- Ends all blocks in front of a directive or a document mark. -/
def leaveBlocks (l : Lexer) : Option Lexer := do
  let l ← (l.closeBlocks none).dropCandidate
  return { l with keyAllowed := false }

/-- A token that takes one character and may be followed by a key if `keyAllowed`. -/
def single (t : Token) (keyAllowed : Bool) (l : Lexer) : Option Lexer := do
  let l ← l.dropCandidate
  return { l with keyAllowed }.take 1 t

/-- An opening bracket. -/
def openFlow (t : Token) (l : Lexer) : Option Lexer := do
  let l ← l.saveCandidate
  let outer := l.candidate :: l.outer
  let flowLevel := l.flowLevel + 1
  return { l with outer, candidate := none, flowLevel, keyAllowed := true }.take 1 t

/-- A closing bracket. -/
def closeFlow (t : Token) (l : Lexer) : Option Lexer := do
  let l ← l.dropCandidate
  let l := match l.outer with
    | candidate :: outer => { l with candidate, outer, flowLevel := l.flowLevel - 1 }
    | [] => l
  return { l with keyAllowed := false }.take 1 t

/-- A dash in front of an item. -/
def blockEntry (l : Lexer) : Option Lexer :=
  if !l.inFlow && !l.keyAllowed then none
  else (l.openBlock l.cursor.column l.count .blockSequenceStart).single .blockEntry true

/-- A question mark in front of a key. -/
def explicitKey (l : Lexer) : Option Lexer :=
  if !l.inFlow && !l.keyAllowed then none
  else (l.openBlock l.cursor.column l.count .blockMappingStart).single .key (!l.inFlow)

/-- A colon in front of a value; it turns the key candidate into a key. -/
def mappingValue (l : Lexer) : Option Lexer :=
  match l.candidate with
  | some k =>
    let l := { l with candidate := none, keyAllowed := false }.insertAt k.position .key
    some ((l.openBlock k.column k.position .blockMappingStart).take 1 .value)
  | none =>
    if !l.inFlow && !l.keyAllowed then none
    else
      let l := l.openBlock l.cursor.column l.count .blockMappingStart
      some ({ l with keyAllowed := !l.inFlow }.take 1 .value)

/-- A token whose text is read by `read` and that may be a key. -/
def scanned (read : Cursor → Option (Token × Cursor)) (l : Lexer) : Option Lexer := do
  let l ← l.saveCandidate
  let (t, cursor) ← read l.cursor
  return { l with keyAllowed := false, cursor }.push t

/-- A block scalar. -/
def blockScalar (fuel : Nat) (fold : Bool) (l : Lexer) : Option Lexer := do
  let l ← l.dropCandidate
  let (text, cursor) ← Text.block fuel fold l.indent l.cursor
  return { l with keyAllowed := true, cursor }.push (.scalar false (String.ofList text))

/-- A quoted scalar. -/
def quotedScalar (fuel : Nat) (single : Bool) (l : Lexer) : Option Lexer :=
  l.scanned fun c => do
    let (text, c) ← Text.quoted fuel single c
    return (.scalar false (String.ofList text), c)

/-- A plain scalar; a key may follow if it ends with a line break. -/
def plainScalar (fuel : Nat) (l : Lexer) : Option Lexer := do
  let l ← l.saveCandidate
  let margin := match l.indent with
    | some n => n + 1
    | none => 0
  let (text, broken, cursor) ← Text.plain fuel l.inFlow margin l.cursor
  return { l with keyAllowed := broken, cursor }.push (.scalar true (String.ofList text))

/-- Whether a plain scalar can start with the character `ch` before `rest`. -/
def startsPlain (inFlow : Bool) (ch : Char) (rest : List Char) : Bool :=
  !(isSpace ch || isBreak ch || "-?:,[]\x7b\x7d#&*!|>'\"%@\x60".toList.contains ch) ||
    (ch = '-' && !rest.head?.any isSpace) ||
    (!inFlow && (ch = '?' || ch = ':') && !atBlank rest)

/-- The next token at the place of the lexer, where the character `ch` stands before `rest`; `fuel`
is more than there are characters left. -/
def token (fuel : Nat) (ch : Char) (rest : List Char) (l : Lexer) : Option Lexer :=
  let c := l.cursor
  if c.column = 0 && ch = '%' then do
    let l ← l.leaveBlocks
    let (t, cursor) ← directive? l.cursor
    return { l with cursor }.push t
  else if c.atDocumentMark then do
    let l ← l.leaveBlocks
    return l.take 3 (if ch = '-' then .documentStart else .documentEnd)
  else if ch = '[' then l.openFlow .flowSequenceStart
  else if ch = '\x7b' then l.openFlow .flowMappingStart
  else if ch = ']' then l.closeFlow .flowSequenceEnd
  else if ch = '\x7d' then l.closeFlow .flowMappingEnd
  else if ch = ',' then l.single .flowEntry true
  else if ch = '-' && atBlank rest then l.blockEntry
  else if ch = '?' && (l.inFlow || atBlank rest) then l.explicitKey
  else if ch = ':' && (l.inFlow || atBlank rest) then l.mappingValue
  else if ch = '*' then
    l.scanned fun c => (anchorName? c).map fun (name, c) => (.alias name, c)
  else if ch = '&' then
    l.scanned fun c => (anchorName? c).map fun (name, c) => (.anchor name, c)
  else if ch = '!' then l.scanned (tag? l.inFlow)
  else if ch = '|' && !l.inFlow then l.blockScalar fuel false
  else if ch = '>' && !l.inFlow then l.blockScalar fuel true
  else if ch = '\'' then l.quotedScalar fuel true
  else if ch = '"' then l.quotedScalar fuel false
  else if startsPlain l.inFlow ch rest then l.plainScalar fuel
  else none

/-- Reads tokens up to the end of the text; every token takes at least one character. -/
def run : Nat → Lexer → Option Lexer
  | 0, _ => none
  | fuel + 1, l => do
    let l ← (l.toNext (fuel + 1)).dropStale
    let l := l.closeBlocks (some l.cursor.column)
    match l.cursor.rest with
    | [] => l.leaveBlocks
    | ch :: rest => run fuel (← l.token (fuel + 1) ch rest)

end Lexer

/-- The tokens of a text; nothing when it holds a character that may not stand in a YAML text or
does not split into tokens. -/
def Token.ofText? (text : String) : Option (List Token) :=
  let chars := text.toList
  if chars.all isAllowed then
    (Lexer.run (chars.length + 1) (.start chars)).map (·.tokens.reverse)
  else none

example : Token.ofText? "a: [b, 'c']\n" = some
    [.blockMappingStart, .key, .scalar true "a", .value, .flowSequenceStart, .scalar true "b",
     .flowEntry, .scalar false "c", .flowSequenceEnd, .blockEnd] := by decide +kernel
example : Token.ofText? "- |\n  x\n- y" = some
    [.blockSequenceStart, .blockEntry, .scalar false "x\n", .blockEntry, .scalar true "y",
     .blockEnd] := by decide +kernel
example : Token.ofText? "a: - b" = none := by decide +kernel

end Workflow.Yaml
