import Workflow.Proofs.Yaml.Rows

/-!
# Strings in every style

A string is written in one of four styles, and the features of its text decide which ones are allowed.
Each style that is allowed is read back: the words of a plain scalar (`plain_of_allowsPlain`), the lines
between single quotes (`spaced_of_allowsSingle`), and the lines of a literal block, whose head says what
becomes of the breaks at its end (`InBlock.content_eq`).
-/

namespace Workflow.Yaml

open Lexer (Plain)

/-- A break that is written as it is. -/
theorem keptBreak_of_isPrintable {ch : Char} (hbreak : isBreak ch = true)
    (hprint : isPrintable ch = true) : ch = '\n' ∨ ch = '\u2028' ∨ ch = '\u2029' := by
  simp only [isBreak, Bool.or_eq_true, decide_eq_true_eq] at hbreak
  rcases hbreak with (((rfl | rfl) | rfl) | rfl) | rfl
  · exact .inl rfl
  · cases hprint
  · cases hprint
  · exact .inr (.inl rfl)
  · exact .inr (.inr rfl)

/-! ### Plain -/

section Plain

variable {text : List Char}

theorem getLast?_ne_of_cons {ch last : Char} (h : (ch :: text).getLast? ≠ some last) :
    text.getLast? ≠ some last := fun hlast => h (by rw [List.getLast?_cons, hlast]; rfl)

/-- Text in which no colon stands before a blank and no number sign behind one: the rest of a word, and
the words behind it. -/
theorem exists_words (hblank : ∀ ch ∈ text, ch = ' ' ∨ isBlank ch = false)
    (hlast : text.getLast? ≠ some ' ') :
    ∀ before : Char, Features.indicatorAfter before text = false →
      ∃ word rest, text = word ++ rest ∧ (∀ ch ∈ word, isBlank ch = false) ∧
        word.getLast? ≠ some ':' ∧ (isBlank before = true → word.head? ≠ some '#') ∧
        (rest = [] ∨ ∃ n more, rest = spaces (n + 1) ++ more ∧ Text.Words more) := by
  induction text with
  | nil => exact fun _ _ => ⟨[], [], rfl, nofun, nofun, nofun, .inl rfl⟩
  | cons ch text ih =>
    intro before hbefore
    obtain ⟨hch, hblank⟩ := List.forall_mem_cons.1 hblank
    rw [Features.indicatorAfter, Bool.or_eq_false_iff, Bool.or_eq_false_iff] at hbefore
    obtain ⟨⟨hcolon, hsign⟩, hafter⟩ := hbefore
    obtain ⟨word, rest, rfl, hword, hwordLast, hwordHead, hrest⟩ :=
      ih hblank (getLast?_ne_of_cons hlast) ch hafter
    rcases hch with rfl | hch
    · -- A space ends the word in front of it, and a further word begins behind it.
      refine ⟨[], _, rfl, nofun, nofun, nofun, .inr ?_⟩
      cases word with
      | nil =>
        rcases hrest with rfl | ⟨n, more, rfl, hmore⟩
        · exact absurd rfl hlast
        · exact ⟨n + 1, more, rfl, hmore⟩
      | cons d word =>
        have hfirst : Text.Word (d :: word) :=
          ⟨List.cons_ne_nil _ _, hword, hwordHead (by decide), hwordLast⟩
        refine ⟨0, d :: word ++ rest, rfl, ?_⟩
        rcases hrest with rfl | ⟨n, more, rfl, hmore⟩
        · rw [List.append_nil]
          exact .one hfirst
        · exact .more n hfirst hmore
    · refine ⟨ch :: word, rest, rfl, List.forall_mem_cons.2 ⟨hch, hword⟩, ?_, ?_, hrest⟩
      · cases word with
        | nil =>
          rintro hlast
          obtain rfl : ch = ':' := Option.some.inj hlast
          rcases hrest with rfl | ⟨n, more, rfl, -⟩ <;> cases hcolon
        | cons d word => rwa [List.getLast?_cons_cons]
      · intro hbehind hhead
        obtain rfl : ch = '#' := Option.some.inj hhead
        have hnot : isBlank before = false := hsign
        rw [hbehind] at hnot
        cases hnot

/-- A text that its features allow to be plain can be written so. -/
theorem plain_of_allowsPlain (hne : text ≠ []) (h : (Features.ofText text).allowsPlain = true) :
    Plain text ∧ Features.isDocumentMark text = false ∧ ∀ ch ∈ text, isAllowed ch = true := by
  obtain ⟨ch, text, rfl⟩ := List.exists_cons_of_ne_nil hne
  simp only [Features.allowsPlain, Features.ofText, Bool.not_eq_true', Bool.or_eq_false_iff,
    List.any_eq_false, decide_eq_false_iff_not, List.head?_cons] at h
  obtain ⟨⟨⟨⟨⟨⟨⟨⟨⟨⟨hmark, hstart⟩, hafter⟩, hbreak⟩, hprint⟩, hfirst⟩, hlast⟩, -⟩, -⟩, -⟩, -⟩ := h
  have hprintable : ∀ d ∈ ch :: text, isPrintable d = true := fun d hd => by
    simpa using hprint d hd
  have hblank : ∀ d ∈ ch :: text, d = ' ' ∨ isBlank d = false := by
    intro d hd
    by_cases hspace : d = ' '
    · exact .inl hspace
    · have htab : d ≠ '\t' := by
        rintro rfl
        exact absurd (hprintable _ hd) (by decide)
      exact .inr (by simp [isBlank, isSpace, hspace, htab, hbreak d hd])
  have hch : isBlank ch = false :=
    (hblank ch List.mem_cons_self).resolve_left fun h => of_decide_eq_false hfirst (congrArg some h)
  obtain ⟨word, rest, rfl, hword, hwordLast, -, hrest⟩ := exists_words
    (fun d hd => hblank d (List.mem_cons_of_mem ch hd)) (getLast?_ne_of_cons hlast) ch hafter
  have hstart' := hstart
  simp only [Features.indicatorAtStart, Bool.or_eq_false_iff] at hstart'
  have hhead : Text.Word (ch :: word) := by
    refine ⟨List.cons_ne_nil _ _, List.forall_mem_cons.2 ⟨hch, hword⟩, ?_, ?_⟩
    · rintro hsign
      obtain rfl : ch = '#' := Option.some.inj hsign
      exact absurd hstart'.1 (by decide)
    · cases word with
      | nil =>
        rintro hcolon
        obtain rfl : ch = ':' := Option.some.inj hcolon
        rcases hrest with rfl | ⟨n, more, rfl, -⟩ <;> cases hstart'.2
      | cons d word => rwa [List.getLast?_cons_cons]
  refine ⟨⟨?_, hstart, ?_⟩, hmark, fun d hd => isAllowed_of_isPrintable (hprintable d hd)⟩
  · rcases hrest with rfl | ⟨n, more, rfl, hmore⟩
    · rw [List.append_nil]
      exact .one hhead
    · exact .more n hhead hmore
  · rintro hvisible
    obtain rfl : ch = byteOrderMark := Option.some.inj hvisible
    exact absurd (hprintable _ List.mem_cons_self) (by decide)

end Plain

/-! ### Single quotes -/

theorem spaced_of_allowsSingle {text : List Char} (h : (Features.ofText text).allowsSingle = true)
    (hline : '\n' ∉ text) : Spaced text ∧ ∀ ch ∈ text, isAllowed ch = true := by
  simp only [Features.allowsSingle, Features.ofText, Bool.not_eq_true', Bool.or_eq_false_iff,
    List.any_eq_false] at h
  obtain ⟨⟨hbreakSpace, hspaceBreak⟩, hprint⟩ := h
  have hprintable : ∀ ch ∈ text, isPrintable ch = true := fun ch hch => by simpa using hprint ch hch
  refine ⟨⟨fun ch hch hbreak => ?_, fun htab => ?_, hbreakSpace, hspaceBreak⟩,
    fun ch hch => isAllowed_of_isPrintable (hprintable ch hch)⟩
  · refine (keptBreak_of_isPrintable hbreak (hprintable ch hch)).resolve_left ?_
    rintro rfl
    exact hline hch
  · exact absurd (hprintable _ htab) (by decide)

/-! ### Literal blocks -/

section Literal

open Yaml.Text (Chomp content)

/-- Lines that are kept as they are read as their text. -/
theorem content_keep {ls : List Line} (h : ∀ l ∈ ls, Text.breakChars l.ending = [l.ending])
    (first others : List Char) : content .keep first others ls = first ++ others ++ joined ls := by
  induction ls generalizing first others with
  | nil => rw [content, Chomp.tail, joined, List.flatMap_nil, List.append_nil]
  | cons l ls ih =>
    obtain ⟨hl, hls⟩ := List.forall_mem_cons.1 h
    rw [content, joined_cons, hl]
    split
    next hempty =>
      rw [ih hls, List.isEmpty_iff.1 hempty]
      simp
    next =>
      rw [ih hls]
      simp

/-- Behind a last line that is not empty only its break can be dropped. -/
theorem content_concat (chomp : Chomp) {ls : List Line} {l : Line}
    (h : ∀ l' ∈ ls ++ [l], Text.breakChars l'.ending = [l'.ending]) (hl : l.text ≠ [])
    (first others : List Char) : content chomp first others (ls ++ [l]) =
      first ++ others ++ joined ls ++ l.text ++ chomp.tail [l.ending] [] := by
  induction ls generalizing first others with
  | nil =>
    obtain ⟨hending, -⟩ := List.forall_mem_cons.1 h
    simp [content, hl, hending, joined]
  | cons l' ls ih =>
    obtain ⟨hending, hls⟩ := List.forall_mem_cons.1 h
    rw [List.cons_append, content, joined_cons, hending]
    split
    next hempty =>
      rw [ih hls, List.isEmpty_iff.1 hempty]
      simp
    next =>
      rw [ih hls]
      simp

/-- A text that is not empty has a last line, which a break ends if there is one at the end of the
text. -/
theorem exists_splitLines {acc text : List Char} (hne : acc ++ text ≠ []) : ∃ ls l,
    splitLines.go acc text = ls ++ [l] ∧
      if text.getLast?.any isBreak then acc.reverse ++ text = joined ls ++ l.text ++ [l.ending]
      else l.ending = '\n' ∧ l.text ≠ [] ∧ acc.reverse ++ text = joined ls ++ l.text := by
  induction text generalizing acc with
  | nil =>
    rw [List.append_nil] at hne
    refine ⟨[], .of acc.reverse, ?_, rfl, ?_, ?_⟩
    · simp [splitLines.go, hne]
    · simpa [Line.of] using hne
    · simp [joined, Line.of]
  | cons ch text ih =>
    rw [splitLines.go]
    split
    next hbreak =>
      cases text with
      | nil =>
        refine ⟨[], ⟨acc.reverse, ch⟩, rfl, ?_⟩
        simp [hbreak, joined]
      | cons d text =>
        obtain ⟨ls, l, hlines, hend⟩ := @ih [] (List.cons_ne_nil _ _)
        refine ⟨⟨acc.reverse, ch⟩ :: ls, l, by rw [hlines]; rfl, ?_⟩
        rw [List.getLast?_cons_cons]
        split
        next hlast =>
          rw [if_pos hlast] at hend
          simp_all
        next hlast =>
          rw [if_neg hlast] at hend
          simp_all
    next hbreak =>
      cases text with
      | nil =>
        refine ⟨[], .of (ch :: acc).reverse, rfl, ?_⟩
        simp [hbreak, joined, Line.of]
      | cons d text =>
        obtain ⟨ls, l, hlines, hend⟩ := @ih (ch :: acc) (List.cons_ne_nil _ _)
        refine ⟨ls, l, hlines, ?_⟩
        rw [List.getLast?_cons_cons]
        simpa using hend

theorem ending_splitLines {acc text : List Char} : ∀ l ∈ splitLines.go acc text,
    l.ending = '\n' ∨ l.ending ∈ text := by
  induction text generalizing acc with
  | nil =>
    rw [splitLines.go]
    split
    · exact List.forall_mem_nil _
    · exact List.forall_mem_singleton.2 (.inl rfl)
  | cons ch text ih =>
    rw [splitLines.go]
    split
    · refine List.forall_mem_cons.2 ⟨.inr List.mem_cons_self, fun l hl => ?_⟩
      exact (ih l hl).imp_right (List.mem_cons_of_mem ch)
    · exact fun l hl => (ih l hl).imp_right (List.mem_cons_of_mem ch)

/-- A text that can stand in a block: its breaks are kept as they are. -/
structure InBlock (text : List Char) : Prop where
  ne_nil : text ≠ []
  breaks : ∀ ch ∈ text, isBreak ch = true → ch = '\n' ∨ ch = '\u2028' ∨ ch = '\u2029'
  head : text.head? ≠ some '\t'
  allowed : ∀ ch ∈ text, isAllowed ch = true

theorem inBlock_of_isPrintable {text : List Char} (hne : text ≠ [])
    (h : ∀ ch ∈ text, isPrintable ch = true) : InBlock text where
  ne_nil := hne
  breaks := fun ch hch hbreak => keptBreak_of_isPrintable hbreak (h ch hch)
  head := fun htab => absurd (h '\t' (List.mem_of_head? htab)) (by decide)
  allowed := fun ch hch => isAllowed_of_isPrintable (h ch hch)

/-- The lines of a text stand in a block as they are. -/
theorem InBlock.fits {text : List Char} (h : InBlock text) :
    ∀ l ∈ splitLines text, l.Fits ∧ Text.breakChars l.ending = [l.ending] := by
  intro l hl
  have hpart := isPart_splitLines rfl l hl
  have hending : l.ending = '\n' ∨ l.ending = '\u2028' ∨ l.ending = '\u2029' := by
    rcases ending_splitLines l hl with hline | hmem
    · exact .inl hline
    · exact h.breaks _ hmem hpart.ending
  refine ⟨⟨fun ch hch => ?_, hpart.ending, ?_⟩, ?_⟩
  · simpa using List.any_eq_false.1 hpart.unbroken ch hch
  · rcases hending with h | h | h <;> rw [h] <;> decide
  · rcases hending with h | h | h <;> rw [h] <;> rfl

/-- What happens to the breaks at the end of a text as a block. -/
def chompOf (text : List Char) : Chomp :=
  if !text.getLast?.any isBreak then .strip
  else if text.dropLast.isEmpty || text.dropLast.getLast?.any isBreak then .keep
  else .clip

/-- Whether the indentation of a text as a block has to be told. -/
def hintOf (text : List Char) : Bool := text.head?.any fun ch => ch = ' ' || isBreak ch

theorem literalHead_eq (text : List Char) :
    literalHead text = '|' :: Text.headOf (hintOf text) (chompOf text) := by
  unfold literalHead chompOf Text.headOf hintOf
  split <;> split <;> first | rfl | (split <;> rfl)

/-- The lines of a text read as the text. -/
theorem InBlock.content_eq {text : List Char} (h : InBlock text) :
    content (chompOf text) [] [] (splitLines text) = text := by
  have hkept := fun l hl => (h.fits l hl).2
  obtain ⟨ls, l, hlines, hend⟩ := @exists_splitLines [] text h.ne_nil
  have hsplit : splitLines text = ls ++ [l] := hlines
  rw [hsplit] at hkept ⊢
  unfold chompOf
  cases hlast : text.getLast?.any isBreak with
  | false =>
    rw [if_neg (by simp [hlast])] at hend
    obtain ⟨-, hl, htext⟩ := hend
    rw [Bool.not_false, if_pos rfl, content_concat _ hkept hl]
    simpa [Chomp.tail] using htext.symm
  | true =>
    rw [if_pos hlast] at hend
    rw [Bool.not_true, if_neg Bool.false_ne_true]
    split
    next =>
      rw [content_keep hkept]
      simpa [joined] using hend.symm
    next hclip =>
      have hl : l.text ≠ [] := by
        -- A last line that is empty stands behind another break, or is all there is.
        intro hempty
        have hdrop : text.dropLast = joined ls := by
          have htext : text = joined ls ++ [l.ending] := by simpa [hempty] using hend
          rw [htext, List.dropLast_concat]
        refine hclip ?_
        rcases List.eq_nil_or_concat ls with rfl | ⟨front, l', rfl⟩
        · rw [hdrop]
          rfl
        · have hl' : l' ∈ splitLines text := by simp [hsplit]
          have hbreak := (h.fits l' hl').1.2.1
          have hjoined : joined (front ++ [l']) = joined front ++ l'.text ++ [l'.ending] := by
            simp [joined]
          rw [hdrop, List.concat_eq_append, hjoined, List.getLast?_concat, Option.any_some, hbreak, Bool.or_true]
      rw [content_concat _ hkept hl]
      simpa [Chomp.tail] using hend.symm

end Literal

end Workflow.Yaml
