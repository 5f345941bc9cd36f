import Workflow.Proofs.Yaml.Quoted

/-!
# Reading plain scalars

A plain scalar on one line is a row of words with spaces between them (`Text.Words`). It is read as
it stands, both in front of the colon behind a key (`plain_key`) and at the end of a line
(`plain_line`).
-/

namespace Workflow.Yaml.Text

/-- A word of a plain scalar. -/
structure Word (word : List Char) : Prop where
  ne_nil : word ≠ []
  noBlank : ∀ ch ∈ word, isBlank ch = false
  head : word.head? ≠ some '#'
  last : word.getLast? ≠ some ':'

/-- Words with spaces between them. -/
inductive Words : List Char → Prop
  | one {word : List Char} : Word word → Words word
  | more {word text : List Char} (n : Nat) :
      Word word → Words text → Words (word ++ (spaces (n + 1) ++ text))

/-- What ends a word: a blank, or the colon behind a key. -/
def EndsWord : List Char → Prop
  | [] => True
  | ch :: rest => isBlank ch = true ∨ ch = ':' ∧ atBlank rest = true

theorem atBlank_cons (ch : Char) (rest : List Char) : atBlank (ch :: rest) = isBlank ch := rfl

theorem plainWord_nil {pending : Gap} {fuel : Nat} {acc : List Char} {c : Cursor}
    (h : EndsWord c.rest) : plainWord false (fuel + 1) pending acc c = some (pending, acc, c) := by
  unfold plainWord
  cases hc : c.rest with
  | nil => rfl
  | cons ch rest =>
      rw [hc] at h
      rcases h with h | ⟨rfl, h⟩
      · have hblank : (isSpace ch || isBreak ch) = true := h
        simp [hblank]
      · have hblank : (isSpace ':' || isBreak ':') = false := by decide
        simp [hblank, h]

theorem plainWord_append {word more : List Char} {pending : Gap} {fuel : Nat} {acc : List Char}
    {c : Cursor} (hblank : ∀ ch ∈ word, isBlank ch = false) (hlast : word.getLast? ≠ some ':')
    (hc : c.rest = word ++ more) (hmore : EndsWord more) (hfuel : word.length < fuel) :
    plainWord false fuel pending acc c =
      some (if word.isEmpty then (pending, acc, c)
        else (.empty, word.reverse ++ (pending.reversedText ++ acc), c.past word)) := by
  induction word generalizing fuel pending acc c with
  | nil =>
      cases fuel with
      | zero => simp at hfuel
      | succ fuel => exact plainWord_nil (by simpa [hc] using hmore)
  | cons ch word ih =>
      obtain ⟨hch, hword⟩ := List.forall_mem_cons.1 hblank
      cases fuel with
      | zero => simp at hfuel
      | succ fuel =>
          have hrest : c.rest = ch :: (word ++ more) := hc
          have hskip : c.skip 1 = c.past [ch] := Cursor.skip_one hrest (isBlank_eq_false hch).2
          have hplain : (isSpace ch || isBreak ch) = false := hch
          have hcolon : (ch = ':' && atBlank (word ++ more)) = false := by
            cases word with
            | nil =>
                have : ch ≠ ':' := by simpa using hlast
                simp [this]
            | cons d word =>
                have : isBlank d = false := hword d List.mem_cons_self
                simp [atBlank_cons, this]
          have hlast' : word.getLast? ≠ some ':' := by
            cases word with
            | nil => simp
            | cons d word => rwa [List.getLast?_cons_cons] at hlast
          rw [plainWord]
          simp only [hrest, hplain, Bool.false_and, Bool.false_eq_true, if_false, hcolon,
            Bool.or_self, hskip]
          rw [ih hword hlast' (Cursor.rest_past_of_eq hrest) (by simpa using hfuel)]
          cases word with
          | nil => simp
          | cons d word => simp [Gap.reversedText, Gap.empty, Cursor.past_cons]

theorem Word.plainWord_eq {word more : List Char} {pending : Gap} {fuel : Nat} {acc : List Char}
    {c : Cursor} (h : Word word) (hc : c.rest = word ++ more) (hmore : EndsWord more)
    (hfuel : word.length < fuel) :
    plainWord false fuel pending acc c =
      some (.empty, word.reverse ++ (pending.reversedText ++ acc), c.past word) := by
  have hne : word.isEmpty = false := by simpa using h.ne_nil
  rw [plainWord_append h.noBlank h.last hc hmore hfuel, hne]
  rfl

theorem Words.ne_nil {text : List Char} (h : Words text) : text ≠ [] := by
  cases h with
  | one h => exact h.ne_nil
  | more n h _ => simp [h.ne_nil]

theorem Words.head {text : List Char} (h : Words text) :
    ∃ ch rest, text = ch :: rest ∧ isBlank ch = false ∧ ch ≠ '#' := by
  have hword : ∀ {word : List Char} (rest : List Char), Word word →
      ∃ ch more, word ++ rest = ch :: more ∧ isBlank ch = false ∧ ch ≠ '#' := by
    intro word rest hw
    cases word with
    | nil => exact absurd rfl hw.ne_nil
    | cons ch word =>
        exact ⟨ch, word ++ rest, rfl, hw.noBlank ch List.mem_cons_self, by simpa using hw.head⟩
  cases h with
  | one h => simpa using hword [] h
  | more n h _ => exact hword _ h

theorem Words.noBreak {text : List Char} (h : Words text) : ∀ ch ∈ text, isBreak ch = false := by
  induction h with
  | one h => exact fun ch hch => (isBlank_eq_false (h.noBlank ch hch)).2
  | more n h _ ih =>
      intro ch hch
      rcases List.mem_append.1 hch with hch | hch
      · exact (isBlank_eq_false (h.noBlank ch hch)).2
      · rcases List.mem_append.1 hch with hch | hch
        · exact not_isBreak_of_mem_spaces hch
        · exact ih ch hch

/-- What is read behind a word, in front of which `acc` was read. -/
def behindWord (margin fuel : Nat) (acc : List Char) (c : Cursor) :
    Option (List Char × Bool × Cursor) :=
  if !(c.atSpace || c.atBreak) then some (acc.reverse, false, c)
  else (gap (some margin) (fuel + 1) .empty c).bind fun r =>
    if r.2.column < margin then some (acc.reverse, r.1.broken, r.2)
    else plainFrom false margin fuel r.1 acc r.2

theorem atDocumentMark_of_column {c : Cursor} (h : c.column ≠ 0) : c.atDocumentMark = false := by
  simp [Cursor.atDocumentMark, h]

/-- A word is read, and then what stands behind it. -/
theorem Word.plainFrom_eq {margin fuel : Nat} {word more : List Char} {g : Gap} {acc : List Char}
    {c : Cursor} (h : Word word) (hc : c.rest = word ++ more) (hmore : EndsWord more)
    (hmark : c.atDocumentMark = false) (hfuel : word.length ≤ fuel) :
    plainFrom false margin (fuel + 1) g acc c =
      behindWord margin fuel (word.reverse ++ (g.reversedText ++ acc)) (c.past word) := by
  have hshows : c.shows '#' = false := by
    obtain ⟨ch, rest, hhead, -, hne⟩ := (Words.one h).head
    have hrest : c.rest = ch :: (rest ++ more) := by rw [hc, hhead]; rfl
    rw [Cursor.shows_eq hrest, decide_eq_false hne]
  rw [plainFrom, hmark, hshows, h.plainWord_eq hc hmore (Nat.lt_succ_of_le hfuel)]
  simp [behindWord, Gap.empty]

/-- All words are read, and then what stands behind the last. -/
theorem Words.plainFrom_eq {margin fuel : Nat} {text more : List Char} (h : Words text) {g : Gap}
    {acc : List Char} {c : Cursor} (hc : c.rest = text ++ more) (hmore : EndsWord more)
    (hmark : c.atDocumentMark = false) (hcolumn : margin ≤ c.column + 1)
    (hfuel : (text ++ more).length < fuel) :
    ∃ fuel', more.length ≤ fuel' ∧ plainFrom false margin fuel g acc c =
      behindWord margin fuel' (text.reverse ++ (g.reversedText ++ acc)) (c.past text) := by
  induction h generalizing fuel g acc c with
  | one h =>
      rw [List.length_append] at hfuel
      obtain ⟨fuel, rfl⟩ : ∃ n, fuel = n + 1 := ⟨fuel - 1, by omega⟩
      exact ⟨fuel, by omega, h.plainFrom_eq hc hmore hmark (by omega)⟩
  | @more word text n h htext ih =>
      simp only [List.length_append, length_spaces] at hfuel
      obtain ⟨fuel, rfl⟩ : ∃ n, fuel = n + 1 := ⟨fuel - 1, by omega⟩
      have hsplit : c.rest = word ++ (spaces (n + 1) ++ (text ++ more)) := by
        simp only [hc, List.append_assoc]
      have hspaces : (c.past word).rest = spaces (n + 1) ++ (text ++ more) :=
        Cursor.rest_past_of_eq hsplit
      have hend : EndsWord (spaces (n + 1) ++ (text ++ more)) := .inl (by decide)
      obtain ⟨ch, rest, hhead, hblank, -⟩ := htext.head
      have hgap := @gap_eq (some margin) (fuel + 1) .empty _ _ _ hspaces
        (fun ch hch => .inl (mem_spaces hch)) (by simp [hhead, hblank])
        (by rw [length_spaces]; omega)
      have hword := Cursor.past_of_noBreak (c := c) fun ch hch =>
        (isBlank_eq_false (h.noBlank ch hch)).2
      have hpos : 0 < word.length := List.length_pos_iff.2 h.ne_nil
      have hcolumn' := Cursor.column_past_spaces (c.past word) (n + 1)
      have hpending : ((spaces (n + 1)).foldl Gap.add .empty).reversedText = spaces (n + 1) := by
        rw [foldl_add_spaces_empty]
        rfl
      obtain ⟨fuel', hle, hrec⟩ := @ih fuel ((spaces (n + 1)).foldl Gap.add .empty)
        (word.reverse ++ (g.reversedText ++ acc)) _ (Cursor.rest_past_of_eq hspaces)
        (atDocumentMark_of_column (by omega)) (by omega) (by rw [List.length_append]; omega)
      refine ⟨fuel', hle, ?_⟩
      have hat : (c.past word).atSpace = true := Cursor.atSpace_eq hspaces
      have hmargin : ¬ ((c.past word).past (spaces (n + 1))).column < margin := by omega
      rw [h.plainFrom_eq hsplit hend hmark (by omega), behindWord, hat, hgap]
      simp only [Bool.true_or, Bool.not_true, Bool.false_eq_true, if_false, Option.bind_some,
        hmargin, hrec, hpending]
      simp [Cursor.past_append, spaces]

/-- A plain scalar in front of the colon behind a key. -/
theorem plain_key {margin fuel : Nat} {text more : List Char} {c : Cursor} (h : Words text)
    (hc : c.rest = text ++ ':' :: more) (hmore : atBlank more = true)
    (hmark : c.atDocumentMark = false) (hcolumn : margin ≤ c.column + 1)
    (hfuel : c.rest.length < fuel) :
    plain fuel false margin c = some (text, false, c.past text) := by
  obtain ⟨fuel', -, hread⟩ := h.plainFrom_eq (g := .empty) hc
    (.inr ⟨rfl, hmore⟩) hmark hcolumn (hc ▸ hfuel)
  have hrest : (c.past text).rest = ':' :: more := Cursor.rest_past_of_eq hc
  have hend : (c.past text).atSpace = false ∧ (c.past text).atBreak = false := by
    rw [Cursor.atSpace_eq hrest, Cursor.atBreak_eq hrest]
    decide
  rw [plain, hread, behindWord, hend.1, hend.2]
  simp [Gap.reversedText, Gap.empty]

/-- A plain scalar at the end of a line. The next line starts left of the scalar, or the text
ends. -/
theorem plain_line {margin fuel k : Nat} {text more : List Char} {c : Cursor} (h : Words text)
    (hc : c.rest = text ++ '\n' :: (spaces k ++ more)) (hmore : more.head?.any isBlank = false)
    (hnext : k < margin ∨ more = []) (hmark : c.atDocumentMark = false)
    (hcolumn : margin ≤ c.column + 1) (hfuel : c.rest.length < fuel) :
    plain fuel false margin c = some (text, true, c.past (text ++ '\n' :: spaces k)) := by
  obtain ⟨fuel', hle, hread⟩ := h.plainFrom_eq (g := .empty) hc
    (.inl (by decide)) hmark hcolumn (hc ▸ hfuel)
  obtain ⟨fuel', rfl⟩ : ∃ n, fuel' = n + 1 := ⟨fuel' - 1, by simp at hle; omega⟩
  have hrest : (c.past text).rest = '\n' :: spaces k ++ more := Cursor.rest_past_of_eq hc
  have hbreak : (c.past text).atBreak = true := Cursor.atBreak_eq hrest
  have hgap := @gap_eq (some margin) (fuel' + 1 + 1) .empty _ _ _ hrest
    (List.forall_mem_cons.2 ⟨.inr (by decide), fun ch hch => .inl (mem_spaces hch)⟩) hmore
    (by simp at hle ⊢; omega)
  have hfold : ('\n' :: spaces k).foldl Gap.add .empty = Gap.add .empty '\n' :=
    foldl_add_spaces (broken_add isBreak_lineFeed) k
  have hlast : ((c.past text).past ('\n' :: spaces k)).column = k :=
    Cursor.column_past_break _ [] isBreak_lineFeed k
  rw [plain, hread, behindWord, hbreak, hgap, hfold, Option.bind_some, hlast,
    Cursor.past_append]
  rcases Nat.lt_or_ge k margin with hlt | hge
  · simp [hlt, Gap.reversedText, Gap.empty, Gap.add, isBreak_lineFeed]
  · obtain rfl : more = [] := hnext.resolve_left (Nat.not_lt.2 hge)
    have hend : ((c.past text).past ('\n' :: spaces k)).rest = [] := Cursor.rest_past_of_eq hrest
    have hmark' : ((c.past text).past ('\n' :: spaces k)).atDocumentMark = false := by
      simp [Cursor.atDocumentMark, hend]
    have hword := @plainWord_nil (Gap.add .empty '\n') fuel'
      (text.reverse ++ (Gap.empty.reversedText ++ [])) _ (by rw [hend]; trivial)
    rw [if_neg (by simp), if_neg (Nat.not_lt.2 hge), plainFrom, hmark']
    simp only [hword]
    simp [Cursor.shows, Cursor.atSpace, Cursor.atBreak, hend, Gap.reversedText, Gap.empty,
      Gap.add, isBreak_lineFeed]

end Workflow.Yaml.Text
