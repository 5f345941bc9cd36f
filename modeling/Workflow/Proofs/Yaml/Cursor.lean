import Workflow.Yaml.Cursor

/-!
# Places after a text

Every reader of a YAML text moves a `Cursor` over the characters that it has read. `Cursor.past`
says where it stands then, one character at a time, and the other moves of a cursor are stated in
terms of it (`skip_eq_past`, `skipBreak_eq_past`).
-/

namespace Workflow.Yaml

theorem not_isBreak_space : isBreak ' ' = false := by decide

theorem isBreak_lineFeed : isBreak '\n' = true := by decide

/-- The given number of spaces. -/
def spaces (n : Nat) : List Char := List.replicate n ' '

@[simp] theorem spaces_zero : spaces 0 = [] := rfl

theorem spaces_succ (n : Nat) : spaces (n + 1) = ' ' :: spaces n := rfl

@[simp] theorem length_spaces (n : Nat) : (spaces n).length = n := List.length_replicate

theorem spaces_add (m n : Nat) : spaces (m + n) = spaces m ++ spaces n := by
  simp [spaces, List.replicate_append_replicate]

theorem mem_spaces {n : Nat} {ch : Char} (h : ch ∈ spaces n) : ch = ' ' :=
  (List.mem_replicate.1 h).2

theorem not_isBreak_of_mem_spaces {n : Nat} {ch : Char} (h : ch ∈ spaces n) :
    isBreak ch = false :=
  mem_spaces h ▸ not_isBreak_space

namespace Cursor

/-- The place after one character. -/
def step (c : Cursor) (ch : Char) : Cursor :=
  { rest := c.rest.tail
    offset := c.offset + ch.utf8Size
    line := if isBreak ch then c.line + 1 else c.line
    column := if isBreak ch then 0 else c.column + 1 }

/-- The place after a text. -/
def past (c : Cursor) (text : List Char) : Cursor := text.foldl step c

@[simp] theorem past_nil (c : Cursor) : c.past [] = c := rfl

theorem past_cons (c : Cursor) (ch : Char) (text : List Char) :
    c.past (ch :: text) = (c.step ch).past text := rfl

theorem past_append (c : Cursor) (first second : List Char) :
    c.past (first ++ second) = (c.past first).past second := List.foldl_append

theorem rest_past (c : Cursor) (text : List Char) :
    (c.past text).rest = c.rest.drop text.length := by
  induction text generalizing c with
  | nil => rfl
  | cons ch text ih => rw [past_cons, ih, step, List.length_cons, ← List.drop_tail]

theorem rest_past_of_eq {c : Cursor} {text more : List Char} (h : c.rest = text ++ more) :
    (c.past text).rest = more := by
  rw [rest_past, h, List.drop_left]

/-- On one line the column moves with the characters and the line stays. -/
theorem past_of_noBreak {c : Cursor} {text : List Char} (h : ∀ ch ∈ text, isBreak ch = false) :
    (c.past text).column = c.column + text.length ∧ (c.past text).line = c.line := by
  induction text generalizing c with
  | nil => exact ⟨rfl, rfl⟩
  | cons ch text ih =>
      obtain ⟨hch, htext⟩ := List.forall_mem_cons.1 h
      obtain ⟨hcolumn, hline⟩ := ih (c := c.step ch) htext
      rw [past_cons, hcolumn, hline, List.length_cons]
      simp only [step, hch, Bool.false_eq_true, if_false]
      exact ⟨by omega, trivial⟩

theorem column_past_spaces (c : Cursor) (n : Nat) : (c.past (spaces n)).column = c.column + n := by
  rw [(past_of_noBreak (c := c) fun _ h => not_isBreak_of_mem_spaces h).1,
    length_spaces]

/-- Behind the mark of an item, a key or a value. -/
theorem column_past_mark (c : Cursor) {mark : Char} (h : isBreak mark = false) :
    (c.past [mark, ' ']).column = c.column + 2 :=
  (past_of_noBreak (List.forall_mem_cons.2 ⟨h, List.forall_mem_singleton.2 not_isBreak_space⟩)).1

/-- Behind a line break the column is that of the new line. -/
theorem column_past_break (c : Cursor) (text : List Char) {ch : Char} (h : isBreak ch = true)
    (n : Nat) : (c.past (text ++ ch :: spaces n)).column = n := by
  rw [past_append, past_cons, column_past_spaces]
  simp [step, h]

theorem foldl_utf8Size (text : List Char) (n : Nat) :
    text.foldl (fun n ch => n + ch.utf8Size) n = n + byteCount text := by
  induction text generalizing n with
  | nil => rfl
  | cons ch text ih =>
      have hcons : byteCount (ch :: text) = 0 + ch.utf8Size + byteCount text := ih _
      rw [List.foldl_cons, ih, hcons]
      omega

theorem byteCount_cons (ch : Char) (text : List Char) :
    byteCount (ch :: text) = ch.utf8Size + byteCount text := by
  rw [byteCount, List.foldl_cons, foldl_utf8Size, Nat.zero_add]

theorem byteCount_append (first second : List Char) :
    byteCount (first ++ second) = byteCount first + byteCount second := by
  induction first with
  | nil => simp [byteCount]
  | cons ch first ih => rw [List.cons_append, byteCount_cons, byteCount_cons, ih, Nat.add_assoc]

theorem offset_past (c : Cursor) (text : List Char) :
    (c.past text).offset = c.offset + byteCount text := by
  induction text generalizing c with
  | nil => rfl
  | cons ch text ih => rw [past_cons, ih, byteCount_cons, step, Nat.add_assoc]

/-- Moving on by as many characters as a text on one line has. -/
theorem skip_eq_past {c : Cursor} {text more : List Char} (hc : c.rest = text ++ more)
    (h : ∀ ch ∈ text, isBreak ch = false) : c.skip text.length = c.past text := by
  have hpast := past_of_noBreak (c := c) h
  have hrest := rest_past_of_eq hc
  have hoffset := offset_past c text
  cases hp : c.past text with
  | mk rest offset line column =>
    rw [hp] at hpast hrest hoffset
    simp only [skip, hc, List.drop_left, List.take_left, mk.injEq]
    exact ⟨hrest.symm, hoffset.symm, hpast.2.symm, hpast.1.symm⟩

theorem skip_one {c : Cursor} {ch : Char} {more : List Char} (hc : c.rest = ch :: more)
    (h : isBreak ch = false) : c.skip 1 = c.past [ch] :=
  @skip_eq_past _ [ch] _ hc (by simpa using h)

theorem skipBreak_eq_past {c : Cursor} {ch : Char} {more : List Char} (hc : c.rest = ch :: more)
    (h : isBreak ch = true) (hne : ch ≠ '\r') : c.skipBreak = c.past [ch] := by
  unfold skipBreak
  rw [hc]
  split
  next heq => exact absurd (List.cons.inj heq).1 hne
  next heq =>
    obtain ⟨rfl, rfl⟩ := List.cons.inj heq
    simp [past, step, h, hc]
  next heq => cases heq

/-- Moving on over the characters of one kind, up to one that is not. -/
theorem skipWhile_eq_past {c : Cursor} {p : Char → Bool} {text more : List Char}
    (hc : c.rest = text ++ more) (htext : ∀ ch ∈ text, p ch = true)
    (hmore : more.head?.any p = false) (hbreak : ∀ ch ∈ text, isBreak ch = false) :
    c.skipWhile p = c.past text := by
  have htake : c.rest.takeWhile p = text := by
    rw [hc, List.takeWhile_append_of_pos htext]
    cases more with
    | nil => simp
    | cons ch more => simp_all
  rw [skipWhile, htake, skip_eq_past hc hbreak]

theorem run_eq {c : Cursor} {p : Char → Bool} {text more : List Char}
    (hc : c.rest = text ++ more) (htext : ∀ ch ∈ text, p ch = true)
    (hmore : more.head?.any p = false) : c.run p = text := by
  rw [run, hc, List.takeWhile_append_of_pos htext]
  cases more with
  | nil => simp
  | cons ch more => simp_all

end Cursor

end Workflow.Yaml
