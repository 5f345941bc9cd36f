import Workflow.Proofs.Yaml.Cursor
import Workflow.Yaml.Text

/-!
# Reading quoted scalars

A quoted scalar is a row of `Piece`s: characters as they are spelled between the quotes, and blanks.
`quoted_eq` reads any such row: `text?` folds its line breaks and refuses a mark of a document at the
start of a line. A row without foldable blanks reads as the characters that it spells.
-/

namespace Workflow.Yaml

/-- Whether a character separates words. -/
def isBlank (ch : Char) : Bool := isSpace ch || isBreak ch

theorem isBlank_eq_false {ch : Char} (h : isBlank ch = false) :
    isSpace ch = false ∧ isBreak ch = false := by
  simpa [isBlank] using h

namespace Cursor

theorem atSpace_eq {c : Cursor} {ch : Char} {more : List Char} (hc : c.rest = ch :: more) :
    c.atSpace = isSpace ch := by
  simp [atSpace, hc]

theorem atBreak_eq {c : Cursor} {ch : Char} {more : List Char} (hc : c.rest = ch :: more) :
    c.atBreak = isBreak ch := by
  simp [atBreak, hc]

theorem shows_eq {c : Cursor} {ch : Char} {more : List Char} (hc : c.rest = ch :: more)
    (d : Char) : c.shows d = decide (ch = d) := by
  simp [shows, hc]

end Cursor

namespace Text

/-! ### Gaps -/

/-- What a line break reads as. -/
def breakChars (ch : Char) : List Char := if ch = '\u2028' ∨ ch = '\u2029' then [ch] else ['\n']

theorem breakText_eq {c : Cursor} {ch : Char} {more : List Char} (hc : c.rest = ch :: more)
    (h : isBreak ch = true) : c.breakText = breakChars ch := by
  simp [Cursor.breakText, hc, h, breakChars]

/-- The blanks with one more. -/
def Gap.add (g : Gap) (ch : Char) : Gap :=
  if isBreak ch then
    if g.broken then { g with others := breakChars ch ++ g.others }
    else { g with spaces := [], broken := true, first := breakChars ch }
  else if g.broken then g
  else { g with spaces := ch :: g.spaces }

theorem broken_add {g : Gap} {ch : Char} (h : isBreak ch = true) :
    (g.add ch).broken = true := by
  unfold Gap.add
  rw [if_pos h]
  split
  · assumption
  · rfl

/-- Spaces behind a line break do not count. -/
theorem foldl_add_spaces {g : Gap} (h : g.broken = true) (n : Nat) :
    (spaces n).foldl Gap.add g = g := by
  induction n with
  | zero => rfl
  | succ n ih =>
      have hspace : g.add ' ' = g := by rw [Gap.add, if_neg (by decide), if_pos h]
      rw [spaces_succ, List.foldl_cons, hspace, ih]

/-- Spaces that no line break follows are kept. -/
theorem foldl_add_spaces_empty (n : Nat) :
    (spaces n).foldl Gap.add .empty = { Gap.empty with spaces := spaces n } := by
  induction n with
  | zero => rfl
  | succ n ih =>
      have hsucc : spaces (n + 1) = spaces n ++ [' '] := spaces_add n 1
      rw [hsucc, List.foldl_append, ih, ← hsucc]
      rfl

/-- Whether a character can stand between the words of a written text: a space or a line break that
is not half of another one. -/
def Separates (ch : Char) : Prop := ch = ' ' ∨ isBreak ch = true ∧ ch ≠ '\r'

theorem gap_eq {margin : Option Nat} {fuel : Nat} {g : Gap} {c : Cursor} {blanks more : List Char}
    (hc : c.rest = blanks ++ more) (hblanks : ∀ ch ∈ blanks, Separates ch)
    (hmore : more.head?.any isBlank = false) (hfuel : blanks.length ≤ fuel) :
    gap margin fuel g c = some (blanks.foldl Gap.add g, c.past blanks) := by
  induction blanks generalizing fuel g c with
  | nil =>
      cases fuel with
      | zero => rfl
      | succ fuel =>
          have hend : c.atSpace = false ∧ c.atBreak = false := by
            cases more with
            | nil => simp [Cursor.atSpace, Cursor.atBreak, hc]
            | cons ch more =>
                rw [Cursor.atSpace_eq hc, Cursor.atBreak_eq hc]
                exact isBlank_eq_false (by simpa using hmore)
          simp [gap, hend.1, hend.2]
  | cons ch blanks ih =>
      obtain ⟨hch, hblanks⟩ := List.forall_mem_cons.1 hblanks
      cases fuel with
      | zero => simp at hfuel
      | succ fuel =>
          have hrest : (c.past [ch]).rest = blanks ++ more := Cursor.rest_past_of_eq hc
          have hnext : ∀ g', gap margin fuel g' (c.past [ch])
              = some (blanks.foldl Gap.add g', c.past (ch :: blanks)) :=
            fun g' => ih hrest hblanks (by simpa using hfuel)
          rcases hch with rfl | ⟨hbreak, hne⟩
          · have hskip : c.skip 1 = c.past [' '] := Cursor.skip_one hc not_isBreak_space
            have hshows : c.shows '\t' = false := by rw [Cursor.shows_eq hc]; decide
            have hspace : c.atSpace = true := Cursor.atSpace_eq hc
            simp only [gap, hspace, if_true, hshows, Bool.false_and, Bool.false_eq_true, if_false,
              hskip, hnext, List.foldl_cons, Gap.add, not_isBreak_space, hc, List.cons_append,
              List.take_succ_cons, List.take_zero, List.nil_append]
            split <;> rfl
          · have hskip : c.skipBreak = c.past [ch] := Cursor.skipBreak_eq_past hc hbreak hne
            have hspace : c.atSpace = false := by
              rw [Cursor.atSpace_eq hc]
              cases hs : isSpace ch with
              | false => rfl
              | true => rcases (by simpa [isSpace] using hs) with rfl | rfl <;> cases hbreak
            have hat : c.atBreak = true := (Cursor.atBreak_eq hc).trans hbreak
            simp only [gap, hspace, hat, Bool.false_eq_true, if_true, if_false, hskip, hnext,
              List.foldl_cons, Gap.add, hbreak, breakText_eq hc hbreak]
            split <;> rfl

/-! ### Rows of pieces -/

/-- Whether a text starts with the mark of a document and a blank behind it. -/
def startsMark : List Char → Bool
  | '-' :: '-' :: '-' :: ch :: _ => isBlank ch
  | '.' :: '.' :: '.' :: ch :: _ => isBlank ch
  | _ => false

/-! ### Marks of documents -/

theorem startsMark_iff {text : List Char} :
    startsMark text = true ↔
      ∃ d ch rest, (d = '-' ∨ d = '.') ∧ text = d :: d :: d :: ch :: rest ∧ isBlank ch = true := by
  constructor
  · intro h
    unfold startsMark at h
    split at h
    · exact ⟨'-', _, _, .inl rfl, rfl, h⟩
    · exact ⟨'.', _, _, .inr rfl, rfl, h⟩
    · cases h
  · rintro ⟨d, ch, rest, rfl | rfl, rfl, h⟩ <;> exact h

theorem atDocumentMark_iff {c : Cursor} :
    c.atDocumentMark = true ↔ c.column = 0 ∧
      ∃ d rest, (d = '-' ∨ d = '.') ∧ c.rest = d :: d :: d :: rest ∧ atBlank rest = true := by
  unfold Cursor.atDocumentMark
  rw [Bool.and_eq_true, decide_eq_true_eq]
  refine and_congr_right fun _ => ⟨fun h => ?_, ?_⟩
  · split at h
    next rest hrest => exact ⟨'-', rest, .inl rfl, hrest, h⟩
    next rest hrest => exact ⟨'.', rest, .inr rfl, hrest, h⟩
    next => cases h
  · rintro ⟨d, rest, rfl | rfl, hrest, h⟩ <;> rw [hrest] <;> exact h

/-- A character that neither belongs to a mark of a document nor ends one. -/
def ClosesMark (ch : Char) : Prop := ch ≠ '-' ∧ ch ≠ '.' ∧ isBlank ch = false

theorem atDocumentMark_append {c : Cursor} {text more : List Char} {ch : Char}
    (hch : ClosesMark ch) (hc : c.rest = text ++ ch :: more) :
    c.atDocumentMark = (c.column == 0 && startsMark text) := by
  obtain ⟨hdash, hdot, hblank⟩ := hch
  have hne : ∀ {d : Char}, d = '-' ∨ d = '.' → ch ≠ d := by
    rintro d (rfl | rfl)
    · exact hdash
    · exact hdot
  rw [Bool.eq_iff_iff, atDocumentMark_iff, Bool.and_eq_true, beq_iff_eq, startsMark_iff, hc]
  refine and_congr_right fun _ => ⟨?_, ?_⟩
  · rintro ⟨d, rest, hd, htext, hrest⟩
    rcases text with _ | ⟨x, _ | ⟨y, _ | ⟨z, _ | ⟨w, text⟩⟩⟩⟩
    · exact absurd (List.cons.inj htext).1 (hne hd)
    · exact absurd (List.cons.inj (List.cons.inj htext).2).1 (hne hd)
    · exact absurd (List.cons.inj (List.cons.inj (List.cons.inj htext).2).2).1 (hne hd)
    · have hlast := (List.cons.inj (List.cons.inj (List.cons.inj htext).2).2).2
      rw [← hlast] at hrest
      simp [atBlank, isBlank_eq_false hblank] at hrest
    · simp only [List.cons_append, List.cons.injEq] at htext
      obtain ⟨rfl, rfl, rfl, rfl⟩ := htext
      exact ⟨_, w, text, hd, rfl, hrest⟩
  · rintro ⟨d, w, rest, hd, rfl, hw⟩
    exact ⟨d, _, hd, rfl, hw⟩

/-- A part of a quoted text. -/
inductive Piece where
  /-- A character and how it is spelled. -/
  | char (spelled : List Char) (ch : Char)
  /-- A blank, and how many spaces stand in front of the line that it starts. -/
  | blank (ch : Char) (margin : Nat)

namespace Piece

/-- The text of a piece. -/
def written : Piece → List Char
  | char spelled _ => spelled
  | blank ch margin => ch :: spaces margin

/-- The text of a row of pieces. -/
def writtenAll (row : List Piece) : List Char := row.flatMap written

/-- The text that a row reads as behind the blanks `g`; `atStart` at the start of a line. -/
def text? : Bool → Gap → List Piece → Option (List Char)
  | _, g, [] => some g.reversedText.reverse
  | atStart, g, char spelled ch :: row =>
    if atStart && startsMark (writtenAll (char spelled ch :: row)) then none
    else (text? false .empty row).map fun text => g.reversedText.reverse ++ ch :: text
  | _, g, blank ch margin :: row => text? (isBreak ch && margin == 0) (g.add ch) row

/-- Characters that read as one character between quotes. -/
structure Spells (single : Bool) (spelled : List Char) (ch : Char) : Prop where
  ne_nil : spelled ≠ []
  noBlank : ∀ d ∈ spelled, isBlank d = false
  read : ∀ (fuel : Nat) (acc : List Char) (c : Cursor) (more : List Char),
    c.rest = spelled ++ more →
      quotedWord single (fuel + 1) acc c = quotedWord single fuel (ch :: acc) (c.past spelled)

/-- A piece that is read as such between quotes. -/
def Fits (single : Bool) : Piece → Prop
  | char spelled ch => Spells single spelled ch
  | blank ch margin => Separates ch ∧ (isBreak ch = false → margin = 0)

/-- The row of a word. -/
def ofWord (word : List (List Char × Char)) : List Piece := word.map fun w => char w.1 w.2

/-- The row of blanks. -/
def ofBlanks (blanks : List (Char × Nat)) : List Piece := blanks.map fun b => blank b.1 b.2

/-- Whether a row starts with a character. -/
def startsWord : List Piece → Bool
  | char .. :: _ => true
  | _ => false

/-- Whether a row starts with a blank. -/
def startsGap : List Piece → Bool
  | blank .. :: _ => true
  | _ => false

theorem writtenAll_nil : writtenAll [] = [] := by rw [writtenAll, List.flatMap_nil]

@[simp] theorem writtenAll_cons (p : Piece) (row : List Piece) :
    writtenAll (p :: row) = p.written ++ writtenAll row := rfl

@[simp] theorem writtenAll_append (row other : List Piece) :
    writtenAll (row ++ other) = writtenAll row ++ writtenAll other := List.flatMap_append

/-- A row is a word, the blanks behind it, and another row. -/
theorem exists_split (row : List Piece) : ∃ word blanks rest,
    row = ofWord word ++ (ofBlanks blanks ++ rest) ∧ startsGap rest = false ∧
      (blanks = [] → rest = []) := by
  induction row with
  | nil => exact ⟨[], [], [], rfl, rfl, fun _ => rfl⟩
  | cons p row ih =>
      obtain ⟨word, blanks, rest, rfl, hrest, hempty⟩ := ih
      cases p with
      | char spelled ch => exact ⟨(spelled, ch) :: word, blanks, rest, rfl, hrest, hempty⟩
      | blank ch margin =>
          cases word with
          | nil =>
              exact ⟨[], (ch, margin) :: blanks, rest, rfl, hrest, fun h => absurd h (by simp)⟩
          | cons w word =>
              exact ⟨[], [(ch, margin)], ofWord (w :: word) ++ (ofBlanks blanks ++ rest), rfl, rfl,
                fun h => absurd h (by simp)⟩

/-! ### Words -/

variable {single : Bool} {fuel : Nat} {acc : List Char} {c : Cursor} {more : List Char}

/-- The quote around a scalar. -/
def quoteOf (single : Bool) : Char := if single then '\'' else '"'

theorem quotedWord_of_end {row : List Piece} (hrow : startsWord row = false)
    (hfits : ∀ p ∈ row, Fits single p) (hc : c.rest = writtenAll row ++ quoteOf single :: more)
    (hmore : more.head? ≠ some '\'') :
    quotedWord single (fuel + 1) acc c = some (acc, false, c) := by
  cases row with
  | nil =>
      unfold quotedWord
      cases single
      · have hrest : c.rest = '"' :: more := hc
        have hblank : (isSpace '"' || isBreak '"') = false := by decide
        simp [hrest, hblank]
      · have hrest : c.rest = '\'' :: more := hc
        have hblank : (isSpace '\'' || isBreak '\'') = false := by decide
        simp [hrest, hblank, hmore]
  | cons p row =>
      cases p with
      | char spelled ch => exact absurd hrow (by simp [startsWord])
      | blank ch margin =>
          have hrest : c.rest = ch :: (spaces margin ++ writtenAll row ++ quoteOf single :: more) := by
            simp [hc, written]
          have hblank : (isSpace ch || isBreak ch) = true := by
            rcases (hfits (blank ch margin) List.mem_cons_self).1 with rfl | ⟨hbreak, -⟩
            · decide
            · simp [hbreak]
          unfold quotedWord
          simp [hrest, hblank]

theorem quotedWord_eq {word : List (List Char × Char)} {row : List Piece}
    (hword : ∀ w ∈ word, Spells single w.1 w.2) (hrow : startsWord row = false)
    (hfits : ∀ p ∈ row, Fits single p)
    (hc : c.rest = writtenAll (ofWord word ++ row) ++ quoteOf single :: more)
    (hmore : more.head? ≠ some '\'') (hfuel : word.length < fuel) :
    quotedWord single fuel acc c =
      some ((word.map Prod.snd).reverse ++ acc, false, c.past (writtenAll (ofWord word))) := by
  induction word generalizing fuel acc c with
  | nil =>
      cases fuel with
      | zero => simp at hfuel
      | succ fuel =>
          simpa [ofWord, writtenAll_nil] using quotedWord_of_end hrow hfits hc hmore
  | cons w word ih =>
      obtain ⟨hw, hword⟩ := List.forall_mem_cons.1 hword
      cases fuel with
      | zero => simp at hfuel
      | succ fuel =>
          have hrest : c.rest =
              w.1 ++ (writtenAll (ofWord word ++ row) ++ quoteOf single :: more) := by
            rw [hc, ofWord, List.map_cons, List.cons_append, writtenAll_cons, List.append_assoc]
            rfl
          rw [hw.read fuel acc c _ hrest,
            ih hword (Cursor.rest_past_of_eq hrest) (by simpa using hfuel)]
          simp [ofWord, written, Cursor.past_append]

theorem closesMark_quoteOf (single : Bool) : ClosesMark (quoteOf single) := by
  cases single <;> exact ⟨by decide, by decide, by decide⟩

/-! ### Whole rows -/

/-- A row that does not start with a character stands at no mark. -/
theorem startsMark_of_not_startsWord {row : List Piece} (hrow : startsWord row = false)
    (hfits : ∀ p ∈ row, Fits single p) : startsMark (writtenAll row) = false := by
  cases row with
  | nil => rfl
  | cons p row =>
      cases p with
      | char spelled ch => cases hrow
      | blank ch margin =>
          refine Bool.eq_false_iff.2 fun h => ?_
          obtain ⟨d, w, rest, hd, htext, -⟩ := startsMark_iff.1 h
          obtain rfl : ch = d := (List.cons.inj htext).1
          have hsep : Separates ch := (hfits (blank ch margin) List.mem_cons_self).1
          rcases hd with rfl | rfl <;> rcases hsep with hsep | ⟨hsep, -⟩ <;>
            exact absurd hsep (by decide)

/-- The characters of a word stand behind the blanks in front of it. -/
theorem text?_word {word : List (List Char × Char)} {row : List Piece}
    (hrow : startsWord row = false) (hfits : ∀ p ∈ row, Fits single p) (atStart : Bool) :
    text? atStart .empty (ofWord word ++ row) =
      if atStart && startsMark (writtenAll (ofWord word ++ row)) then none
      else (text? (atStart && word.isEmpty) .empty row).map (word.map Prod.snd ++ ·) := by
  induction word generalizing atStart with
  | nil =>
      have hmark : startsMark (writtenAll row) = false :=
        startsMark_of_not_startsWord hrow hfits
      simp [ofWord, hmark]
  | cons w word ih =>
      have htail : text? false .empty (ofWord word ++ row) =
          (text? false .empty row).map (word.map Prod.snd ++ ·) := by
        rw [ih false]
        simp
      have hcons : ofWord (w :: word) ++ row = char w.1 w.2 :: (ofWord word ++ row) := rfl
      rw [hcons, text?, htail]
      simp [Gap.reversedText, Gap.empty, Function.comp_def]

/-- A row behind blanks reads as their text and what it reads as on its own. -/
theorem text?_gap {row : List Piece} (hrow : startsGap row = false) (atStart : Bool) (g : Gap) :
    text? atStart g row = (text? atStart .empty row).map (g.reversedText.reverse ++ ·) := by
  cases row with
  | nil => simp [text?, Gap.reversedText, Gap.empty]
  | cons p row =>
      cases p with
      | char spelled ch =>
          rw [text?, text?]
          split
          · rfl
          · simp [Gap.reversedText, Gap.empty, Function.comp_def]
      | blank ch margin => cases hrow

/-- The blanks of a row as characters. -/
theorem foldl_add_written {blanks : List (Char × Nat)}
    (h : ∀ b ∈ blanks, Fits single (blank b.1 b.2)) (g : Gap) :
    (writtenAll (ofBlanks blanks)).foldl Gap.add g =
      (blanks.map Prod.fst).foldl Gap.add g := by
  induction blanks generalizing g with
  | nil => rfl
  | cons b blanks ih =>
      obtain ⟨hb, hblanks⟩ := List.forall_mem_cons.1 h
      have hmargin : (spaces b.2).foldl Gap.add (g.add b.1) = g.add b.1 := by
        cases hbreak : isBreak b.1 with
        | false => rw [hb.2 hbreak, spaces_zero, List.foldl_nil]
        | true =>
            exact foldl_add_spaces (broken_add hbreak) b.2
      simp only [ofBlanks, List.map_cons, writtenAll_cons, written, List.cons_append,
        List.foldl_cons, List.foldl_append, hmargin]
      exact ih hblanks _

/-- The blanks in front of a row are gathered before it is read. -/
theorem text?_blanks {blanks : List (Char × Nat)} {row : List Piece} (atStart : Bool) (g : Gap)
    (c : Cursor) (hstart : atStart = (c.column == 0)) :
    text? atStart g (ofBlanks blanks ++ row) =
      text? ((c.past (writtenAll (ofBlanks blanks))).column == 0)
        ((blanks.map Prod.fst).foldl Gap.add g) row := by
  induction blanks generalizing atStart g c with
  | nil => simp [ofBlanks, writtenAll_nil, hstart]
  | cons b blanks ih =>
      have hcolumn : (isBreak b.1 && b.2 == 0) = ((c.past (b.1 :: spaces b.2)).column == 0) := by
        rw [Cursor.past_cons, Cursor.column_past_spaces, Cursor.step]
        cases isBreak b.1 <;> simp
      have hcons : ofBlanks (b :: blanks) ++ row = blank b.1 b.2 :: (ofBlanks blanks ++ row) := rfl
      rw [hcons, text?, ih _ _ (c.past (b.1 :: spaces b.2)) hcolumn]
      simp [ofBlanks, written, ← Cursor.past_append]

theorem separates_of_mem {blanks : List (Char × Nat)}
    (h : ∀ b ∈ blanks, Fits single (blank b.1 b.2)) :
    ∀ ch ∈ writtenAll (ofBlanks blanks), Separates ch := by
  intro ch hch
  obtain ⟨p, hp, hch⟩ := List.mem_flatMap.1 hch
  obtain ⟨b, hb, rfl⟩ := List.mem_map.1 hp
  rcases List.mem_cons.1 hch with rfl | hspace
  · exact (h b hb).1
  · exact .inl (mem_spaces hspace)

theorem length_le_writtenAll {row : List Piece} (hfits : ∀ p ∈ row, Fits single p) :
    row.length ≤ (writtenAll row).length := by
  induction row with
  | nil => simp
  | cons p row ih =>
      obtain ⟨hp, hrow⟩ := List.forall_mem_cons.1 hfits
      have hwritten : 0 < p.written.length := by
        cases p with
        | char spelled ch => exact List.length_pos_iff.2 hp.ne_nil
        | blank ch margin => simp [written]
      have := ih hrow
      simp only [writtenAll_cons, List.length_cons, List.length_append]
      omega

theorem head_not_isBlank {row : List Piece} (hrow : startsGap row = false)
    (hfits : ∀ p ∈ row, Fits single p) :
    (writtenAll row ++ quoteOf single :: more).head?.any isBlank = false := by
  cases row with
  | nil => cases single <;> rfl
  | cons p row =>
      cases p with
      | char spelled ch =>
          have hspells : Spells single spelled ch := hfits _ List.mem_cons_self
          cases hs : spelled with
          | nil => exact absurd hs hspells.ne_nil
          | cons d spelled =>
              have := hspells.noBlank d (hs ▸ List.mem_cons_self)
              simpa [written] using this
      | blank ch margin => cases hrow

theorem noBreak_of_mem_word {word : List (List Char × Char)}
    (hword : ∀ w ∈ word, Spells single w.1 w.2) :
    ∀ ch ∈ writtenAll (ofWord word), isBreak ch = false := by
  intro ch hch
  obtain ⟨p, hp, hch⟩ := List.mem_flatMap.1 hch
  obtain ⟨w, hw, rfl⟩ := List.mem_map.1 hp
  exact (isBlank_eq_false ((hword w hw).noBlank ch hch)).2

theorem column_past_word {word : List (List Char × Char)}
    (hword : ∀ w ∈ word, Spells single w.1 w.2) :
    (c.column == 0 && word.isEmpty) = ((c.past (writtenAll (ofWord word))).column == 0) := by
  rw [(Cursor.past_of_noBreak (noBreak_of_mem_word hword)).1]
  cases word with
  | nil => simp [ofWord, writtenAll_nil]
  | cons w word =>
      have hpos : 0 < w.1.length := List.length_pos_iff.2 (hword w List.mem_cons_self).ne_nil
      simp only [List.isEmpty_cons, Bool.and_false, ofWord, List.map_cons, writtenAll_cons, written,
        List.length_append]
      symm
      rw [beq_eq_false_iff_ne]
      omega

/-- A quoted scalar is read as its row of pieces says. -/
theorem quotedFrom_eq {row : List Piece} (hfits : ∀ p ∈ row, Fits single p)
    (hc : c.rest = writtenAll row ++ quoteOf single :: more) (hmore : more.head? ≠ some '\'')
    (hfuel : (writtenAll row).length < fuel) :
    quotedFrom single fuel acc c = (text? (c.column == 0) .empty row).map fun text =>
      (acc.reverse ++ text, c.past (writtenAll row ++ [quoteOf single])) := by
  induction fuel generalizing row acc c with
  | zero => simp at hfuel
  | succ fuel ih =>
    obtain ⟨word, blanks, rest, rfl, hgap, hempty⟩ := exists_split row
    have hword : ∀ w ∈ word, Spells single w.1 w.2 := fun w hw =>
      hfits (char w.1 w.2) (List.mem_append_left _ (List.mem_map.2 ⟨w, hw, rfl⟩))
    have hlater : ∀ p ∈ ofBlanks blanks ++ rest, Fits single p := fun p hp =>
      hfits p (List.mem_append_right _ hp)
    have hblanks : ∀ b ∈ blanks, Fits single (blank b.1 b.2) := fun b hb =>
      hlater _ (List.mem_append_left _ (List.mem_map.2 ⟨b, hb, rfl⟩))
    have hnoword : startsWord (ofBlanks blanks ++ rest) = false := by
      cases blanks with
      | nil => rw [hempty rfl]; rfl
      | cons b blanks => rfl
    have hlength : word.length ≤ (writtenAll (ofWord word ++ (ofBlanks blanks ++ rest))).length := by
      have := length_le_writtenAll hfits
      simp only [List.length_append, ofWord, List.length_map] at this ⊢
      omega
    have hmark := atDocumentMark_append (closesMark_quoteOf single) hc
    have hread := @quotedWord_eq _ (fuel + 1) acc _ _ _ _ hword hnoword hlater hc hmore
      (by omega)
    have hrest : (c.past (writtenAll (ofWord word))).rest =
        writtenAll (ofBlanks blanks ++ rest) ++ quoteOf single :: more := by
      refine Cursor.rest_past_of_eq ?_
      rw [hc, writtenAll_append, List.append_assoc]
    have hstart : (c.column == 0 && word.isEmpty) =
        ((c.past (writtenAll (ofWord word))).column == 0) := column_past_word hword
    rw [quotedFrom, hmark, text?_word hnoword hlater]
    cases hat : c.column == 0 && startsMark (writtenAll (ofWord word ++ (ofBlanks blanks ++ rest)))
    case true => rfl
    have hpast : c.past (writtenAll (ofWord word ++ (ofBlanks blanks ++ rest)) ++ [quoteOf single]) =
        (c.past (writtenAll (ofWord word))).past
          (writtenAll (ofBlanks blanks ++ rest) ++ [quoteOf single]) := by
      rw [writtenAll_append, List.append_assoc, Cursor.past_append]
    simp only [Bool.false_eq_true, if_false, hread, Option.bind_eq_bind, Option.bind_some, hstart,
      hpast]
    generalize c.past (writtenAll (ofWord word)) = c₁ at hrest
    have hnonempty : c₁.rest.isEmpty = false := by simp [hrest]
    rw [hnonempty, if_neg Bool.false_ne_true]
    cases blanks with
    | nil =>
        obtain rfl := hempty rfl
        have hquote : c₁.rest = quoteOf single :: more := hrest
        have hshows : c₁.shows (quoteOf single) = true := by
          rw [Cursor.shows_eq hquote, decide_eq_true rfl]
        have hskip : c₁.skip 1 = c₁.past [quoteOf single] :=
          Cursor.skip_one hquote (by cases single <;> decide)
        rw [show (if single = true then '\'' else '"') = quoteOf single from rfl, hshows, hskip]
        simp [ofBlanks, writtenAll_nil, text?, Gap.reversedText, Gap.empty]
    | cons b blanks =>
        have hshows : c₁.shows (quoteOf single) = false := by
          have hhead : c₁.rest = b.1 :: (spaces b.2 ++ (writtenAll (ofBlanks blanks ++ rest) ++
              quoteOf single :: more)) := by
            simpa [ofBlanks, written] using hrest
          rw [Cursor.shows_eq hhead, decide_eq_false_iff_not]
          rintro heq
          have hsep : Separates b.1 := (hblanks b List.mem_cons_self).1
          rw [heq] at hsep
          cases single <;> rcases hsep with hsep | ⟨hsep, -⟩ <;> exact absurd hsep (by decide)
        have hsplit : c₁.rest = writtenAll (ofBlanks (b :: blanks)) ++
            (writtenAll rest ++ quoteOf single :: more) := by
          rw [hrest, writtenAll_append, List.append_assoc]
        have hfits' : ∀ p ∈ rest, Fits single p := fun p hp =>
          hlater p (List.mem_append_right _ hp)
        simp only [writtenAll_append, List.length_append] at hfuel
        have hgapRead := @gap_eq none (fuel + 1) .empty _ _ _ hsplit
          (separates_of_mem hblanks) (head_not_isBlank hgap hfits') (by omega)
        have hpos : 0 < (writtenAll (ofBlanks (b :: blanks))).length := by
          simp [ofBlanks, written]
        have hnext := fun acc => @ih acc _ _ hfits' (Cursor.rest_past_of_eq hsplit) (by omega)
        have htext := @text?_blanks (b :: blanks) rest (c₁.column == 0) .empty c₁ rfl
        rw [show (if single = true then '\'' else '"') = quoteOf single from rfl, hshows, hgapRead,
          htext, text?_gap hgap]
        simp only [Bool.and_false, Bool.false_eq_true, if_false, Option.bind_some, hnext,
          Option.map_map]
        refine congrArg (Option.map · _) (funext fun text => ?_)
        simp [foldl_add_written hblanks, Cursor.past_append]

end Piece

/-- A quoted scalar, from its opening quote on, is read as its row of pieces says. -/
theorem quoted_eq {single : Bool} {fuel : Nat} {row : List Piece} {c : Cursor} {more : List Char}
    (hfits : ∀ p ∈ row, p.Fits single)
    (hc : c.rest = Piece.quoteOf single :: Piece.writtenAll row ++ Piece.quoteOf single :: more)
    (hmore : more.head? ≠ some '\'') (hfuel : (Piece.writtenAll row).length < fuel) :
    quoted fuel single c = (Piece.text? false .empty row).map fun text =>
      (text, c.past (Piece.quoteOf single :: Piece.writtenAll row ++ [Piece.quoteOf single])) := by
  have hbreak : isBreak (Piece.quoteOf single) = false := by cases single <;> decide
  have hskip : c.skip 1 = c.past [Piece.quoteOf single] := Cursor.skip_one hc hbreak
  have hcolumn : ((c.past [Piece.quoteOf single]).column == 0) = false := by
    simp [Cursor.past, Cursor.step, hbreak]
  have hrest : (c.past [Piece.quoteOf single]).rest =
      Piece.writtenAll row ++ Piece.quoteOf single :: more := Cursor.rest_past_of_eq hc
  rw [quoted, hskip, Piece.quotedFrom_eq hfits hrest hmore hfuel, hcolumn]
  rfl

end Text

end Workflow.Yaml
