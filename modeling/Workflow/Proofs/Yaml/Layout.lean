import Workflow.Proofs.Yaml.Blocks

/-!
# Laid out values

A `Layout` is a value as it stands in a text: every scalar with its characters, lists and records as
blocks. Its text and its tokens are functions of it, and when its scalars are read where they stand the
text splits into the tokens (`Layout.ofText?_text`).
-/

namespace Workflow.Yaml

open Lexer (ReadsAs ReadsAsKey ReadsAt ReadsBehind ReadsBlock)

/-- A value that is no block: a scalar, or an empty container. -/
inductive Atom where
  | scalar (plain : Bool) (text : String)
  | list
  | record

/-- The tokens of an atom. -/
def Atom.tokens : Atom → List Token
  | scalar plain text => [.scalar plain text]
  | list => [.flowSequenceStart, .flowSequenceEnd]
  | record => [.flowMappingStart, .flowMappingEnd]

/-- A key of a record. -/
structure Key where
  text : String
  /-- The characters of the key; also the line break behind it, unless the value follows on the same
  line. -/
  written : List Char
  plain : Bool
  /-- Whether the value follows on the same line. -/
  simple : Bool

/-- A value as it stands in a text. -/
inductive Layout where
  /-- An atom and its characters, with the line break behind it. -/
  | atom (written : List Char) (a : Atom)
  | list (items : List Layout)
  | record (fields : List (Key × Layout))

namespace Layout

/-- The text of blocks, or none; the next one begins on a new line. -/
def onward (column : Nat) (text : List Char) : List Char :=
  if text.isEmpty then [] else spaces column ++ text

mutual

/-- The text of a value whose first character stands at a column. -/
def text (column : Nat) : Layout → List Char
  | atom written _ => written
  | list items => itemsText column items
  | record fields => fieldsText column fields

/-- The text of a value behind the colon of a key at a column. -/
def behind (column : Nat) : Layout → List Char
  | atom written _ => ' ' :: written
  | list items => '\n' :: (spaces column ++ itemsText column items)
  | record fields => '\n' :: (spaces (column + 2) ++ fieldsText (column + 2) fields)

/-- The text of list items. -/
def itemsText (column : Nat) : List Layout → List Char
  | [] => []
  | l :: rest => '-' :: ' ' :: l.text (column + 2) ++ onward column (itemsText column rest)

/-- The text of record fields. -/
def fieldsText (column : Nat) : List (Key × Layout) → List Char
  | [] => []
  | (key, l) :: rest =>
    (if key.simple then key.written ++ ':' :: l.behind column
      else '?' :: ' ' :: (key.written ++ (spaces column ++ ':' :: ' ' :: l.text (column + 2)))) ++
      onward column (fieldsText column rest)

end

mutual

/-- The tokens of a value; the items of a list behind a key are no block of their own. -/
def tokens (behindKey : Bool) : Layout → List Token
  | atom _ a => a.tokens
  | list items =>
    if behindKey then itemTokens items
    else .blockSequenceStart :: itemTokens items ++ [.blockEnd]
  | record fields => .blockMappingStart :: fieldTokens fields ++ [.blockEnd]

/-- The tokens of list items. -/
def itemTokens : List Layout → List Token
  | [] => []
  | l :: rest => .blockEntry :: l.tokens false ++ itemTokens rest

/-- The tokens of record fields. -/
def fieldTokens : List (Key × Layout) → List Token
  | [] => []
  | (key, l) :: rest =>
    .key :: .scalar key.plain key.text :: .value :: l.tokens key.simple ++ fieldTokens rest

end

/-! ### Layouts whose scalars are read -/

/-- A text that begins and ends with lines of its own. -/
structure OwnLines (text : List Char) : Prop where
  starts : Starts text
  ends : EndsLine text

/-- The text of an atom in a block at a column. -/
structure AtomFits (column : Nat) (written : List Char) (a : Atom) : Prop where
  lines : OwnLines written
  reads : ReadsAs column written a.tokens

/-- The text of a key in front of its colon. -/
structure KeyFits (key : Key) : Prop where
  starts : Starts key.written
  line : ∀ ch ∈ key.written, isBreak ch = false
  reads : ReadsAsKey key.written key.plain key.text

mutual

/-- A value at a column in a block that begins further left. -/
def Fits (outer column : Nat) : Layout → Prop
  | atom written a => AtomFits outer written a
  | list items => items ≠ [] ∧ ItemsFit column items
  | record fields => fields ≠ [] ∧ FieldsFit column fields

/-- A value behind a key at a column. -/
def FitsBehind (column : Nat) : Layout → Prop
  | atom written a => AtomFits column written a
  | list items => items ≠ [] ∧ ItemsFit column items
  | record fields => fields ≠ [] ∧ FieldsFit (column + 2) fields

/-- List items at a column. -/
def ItemsFit (column : Nat) : List Layout → Prop
  | [] => True
  | l :: rest => l.Fits column (column + 2) ∧ ItemsFit column rest

/-- Record fields at a column. -/
def FieldsFit (column : Nat) : List (Key × Layout) → Prop
  | [] => True
  | (key, l) :: rest =>
    (if key.simple then KeyFits key ∧ l.FitsBehind column
      else AtomFits column key.written (.scalar key.plain key.text) ∧ l.Fits column (column + 2)) ∧
      FieldsFit column rest

end

/-- A part of a block that is read, and the others behind it. -/
theorem readsBlock_onward {start : Token} {column : Nat} {text other : List Char}
    {tokens others : List Token} (h : OwnLines text ∧ ReadsBlock start column text tokens)
    (hother : other = [] ∧ others = [] ∨ OwnLines other ∧ ReadsBlock start column other others) :
    OwnLines (text ++ onward column other) ∧
      ReadsBlock start column (text ++ onward column other) (tokens ++ others) := by
  obtain ⟨hlines, hreads⟩ := h
  rcases hother with ⟨rfl, rfl⟩ | ⟨hlines', hreads'⟩
  · simpa [onward] using ⟨hlines, hreads⟩
  · have hne : other.isEmpty = false := by
      obtain ⟨front, ch, -, rfl⟩ := hlines'.ends
      simp
    rw [onward, hne, if_neg Bool.false_ne_true]
    exact ⟨⟨hlines.starts.append _, (hlines'.ends.append _).append _⟩,
      hreads.append hlines.ends hreads' hlines'.starts⟩

mutual

theorem reads_at {outer column : Nat} (hlt : outer < column) : (l : Layout) → l.Fits outer column →
    OwnLines (l.text column) ∧ ReadsAt outer column (l.text column) (l.tokens false)
  | atom written a, h => ⟨h.lines, h.reads.at hlt⟩
  | list items, h => by
    obtain ⟨hlines, hreads⟩ := reads_items items h.1 h.2
    exact ⟨hlines, hreads.at hlines.ends hlt⟩
  | record fields, h => by
    obtain ⟨hlines, hreads⟩ := reads_fields fields h.1 h.2
    exact ⟨hlines, hreads.at hlines.ends hlt⟩

theorem reads_behind {column : Nat} : (l : Layout) → l.FitsBehind column →
    (atBlank (l.behind column) = true ∧ EndsLine (l.behind column)) ∧
      ReadsBehind column (l.behind column) (l.tokens true)
  | atom written a, h => ⟨⟨rfl, h.lines.ends.cons ' '⟩, h.reads.behind h.lines.starts⟩
  | list items, h => by
    obtain ⟨hlines, hreads⟩ := reads_items items h.1 h.2
    exact ⟨⟨rfl, (hlines.ends.append _).cons '\n'⟩, hreads.behind hlines.starts⟩
  | record fields, h => by
    obtain ⟨hlines, hreads⟩ := reads_fields fields h.1 h.2
    exact ⟨⟨rfl, (hlines.ends.append _).cons '\n'⟩,
      (hreads.at hlines.ends (Nat.lt_add_of_pos_right (by decide))).behind hlines.starts⟩

theorem reads_items {column : Nat} : (items : List Layout) → items ≠ [] → ItemsFit column items →
    OwnLines (itemsText column items) ∧
      ReadsBlock .blockSequenceStart column (itemsText column items) (itemTokens items)
  | [], hne, _ => absurd rfl hne
  | l :: rest, _, h => by
    obtain ⟨hlines, hreads⟩ := reads_at
      (Nat.lt_add_of_pos_right (by decide)) l h.1
    have hitem : OwnLines ('-' :: ' ' :: l.text (column + 2)) :=
      ⟨starts_cons (by decide), (hlines.ends.cons ' ').cons '-'⟩
    rw [itemsText, itemTokens]
    refine readsBlock_onward ⟨hitem, hreads.item hlines.starts⟩ ?_
    cases rest with
    | nil => exact .inl ⟨rfl, rfl⟩
    | cons l' rest => exact .inr (reads_items (l' :: rest) (List.cons_ne_nil _ _) h.2)

theorem reads_fields {column : Nat} : (fields : List (Key × Layout)) → fields ≠ [] →
    FieldsFit column fields → OwnLines (fieldsText column fields) ∧
      ReadsBlock .blockMappingStart column (fieldsText column fields) (fieldTokens fields)
  | [], hne, _ => absurd rfl hne
  | (key, l) :: rest, _, h => by
    rw [fieldsText, fieldTokens]
    refine readsBlock_onward ?_ ?_
    · obtain ⟨hfield, -⟩ := h
      cases hsimple : key.simple with
      | true =>
        rw [hsimple, if_pos rfl] at hfield
        obtain ⟨hkey, hl⟩ := hfield
        obtain ⟨⟨hblank, hends⟩, hreads⟩ := reads_behind l hl
        exact ⟨⟨hkey.starts.append _, (hends.cons ':').append _⟩,
          hkey.reads.field hkey.line hreads hblank hends⟩
      | false =>
        rw [hsimple, if_neg Bool.false_ne_true] at hfield
        obtain ⟨hkey, hl⟩ := hfield
        obtain ⟨hlines, hreads⟩ := reads_at
          (Nat.lt_add_of_pos_right (by decide)) l hl
        have hends := ((hlines.ends.cons ' ').cons ':').append (key.written ++ spaces column)
        rw [List.append_assoc] at hends
        exact ⟨⟨starts_cons (by decide), (hends.cons ' ').cons '?'⟩,
          hkey.reads.field hkey.lines.starts hkey.lines.ends hreads hlines.starts⟩
    · cases rest with
      | nil => exact .inl ⟨rfl, rfl⟩
      | cons field rest => exact .inr (reads_fields (field :: rest) (List.cons_ne_nil _ _) h.2)

end

/-- The text of a layout that begins at the first column splits into its tokens. -/
theorem ofText?_text {l : Layout} (h : l.Fits 0 0) (hblock : ∀ written a, l ≠ .atom written a)
    (hallowed : ∀ ch ∈ l.text 0, isAllowed ch = true) :
    Token.ofText? (String.ofList (l.text 0)) = some (l.tokens false) := by
  have hlist := String.toList_ofList (l := l.text 0)
  rw [← hlist] at hallowed
  cases l with
  | atom written a => exact absurd rfl (hblock written a)
  | list items =>
    have hreads := (reads_items items h.1 h.2).2
    exact ReadsBlock.ofText?_eq (hlist.symm ▸ hreads) hallowed
  | record fields =>
    have hreads := (reads_fields fields h.1 h.2).2
    exact ReadsBlock.ofText?_eq (hlist.symm ▸ hreads) hallowed

end Layout

end Workflow.Yaml
