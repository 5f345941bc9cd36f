import Workflow.Proofs.Yaml.Clear
import Workflow.Proofs.Yaml.Leaves

/-!
# Strings between quotes

Every way to write a string between quotes is a row of pieces that reads as the string: between double
quotes and in JSON a space is a blank and every other character is spelled (`quoted_spelledRow`), between
single quotes a separator starts a new line (`quoted_singleRow`).
-/

namespace Workflow.Yaml

open Yaml.Text (Gap Piece)
open Yaml.Text.Piece (text? writtenAll quoteOf)
open Lexer (Quoted quoted)

/-! ### Lines -/

/-- The text of lines. -/
def joined (ls : List Line) : List Char := ls.flatMap fun l => l.text ++ [l.ending]

@[simp] theorem joined_cons (l : Line) (ls : List Line) :
    joined (l :: ls) = l.text ++ l.ending :: joined ls := by simp [joined]

@[simp] theorem joined_append (ls more : List Line) : joined (ls ++ more) = joined ls ++ joined more :=
  List.flatMap_append

/-- Indented lines are the same lines behind spaces, unless the first one is empty and stays so. -/
theorem joined_indent (n : Nat) (l : Line) (ls : List Line) :
    joined ((l :: ls).map (Line.indent n)) =
      joined (behind (if l.text.isEmpty then [] else spaces n) n (l :: ls)) := by
  rw [List.map_cons, behind, joined_cons, joined_cons]
  unfold Line.indent
  split <;> rfl

/-! ### Blanks that are kept -/

/-- Blanks that are kept as they are, and that the next character does not change. -/
structure Kept (g : Gap) (next : Option Char) : Prop where
  fresh : g.broken = false → g.others = []
  /-- No space stands before a line break. -/
  spaces : g.broken = false → g.spaces ≠ [] → next.any isBreak = false
  /-- No space stands behind a line break, and the break is kept. -/
  broken : g.broken = true → next ≠ some ' ' ∧ g.first.head? ≠ some '\n'

theorem kept_empty (next : Option Char) : Kept .empty next := ⟨fun _ => rfl, fun _ h => absurd rfl h, nofun⟩

/-- A character that is kept where it stands between the words of a quoted text. -/
def IsKeptBlank (ch : Char) : Prop := ch = ' ' ∨ ch = '\u2028' ∨ ch = '\u2029'

theorem IsKeptBlank.separates {ch : Char} (h : IsKeptBlank ch) : Text.Separates ch := by
  rcases h with rfl | rfl | rfl
  · exact .inl rfl
  · exact .inr (by decide)
  · exact .inr (by decide)

/-- One more blank that is kept is read as it is. -/
theorem Kept.reversedText_add {g : Gap} {ch : Char} (h : Kept g (some ch)) (hch : IsKeptBlank ch) :
    (g.add ch).reversedText = ch :: g.reversedText := by
  obtain ⟨spaces, broken, first, others⟩ := g
  cases broken with
  | false =>
    rcases hch with rfl | hch
    · rfl
    · cases spaces with
      | nil =>
        have hothers : others = [] := h.fresh rfl
        rcases hch with rfl | rfl <;>
          simp [Gap.add, Gap.reversedText, Text.breakChars, isBreak, hothers]
      | cons s spaces =>
        have hbreak := h.spaces rfl (List.cons_ne_nil _ _)
        rcases hch with rfl | rfl <;> cases hbreak
  | true =>
    obtain ⟨hspace, hfirst⟩ := h.broken rfl
    have hfirst : first.head? ≠ some '\n' := hfirst
    rcases hch with rfl | hch
    · exact absurd rfl hspace
    · rcases hch with rfl | rfl <;>
        simp [Gap.add, Gap.reversedText, Text.breakChars, isBreak, hfirst]

theorem Kept.of_broken {spaces first others : List Char} {next : Option Char} (hnext : next ≠ some ' ')
    (hfirst : first.head? ≠ some '\n') : Kept ⟨spaces, true, first, others⟩ next :=
  ⟨nofun, nofun, fun _ => ⟨hnext, hfirst⟩⟩

/-- A blank is kept with those in front of it if none of the other kind follows. -/
theorem Kept.add {g : Gap} {ch : Char} {next : Option Char} (h : Kept g (some ch))
    (hch : IsKeptBlank ch) (hspace : ch = ' ' → next.any isBreak = false)
    (hbreak : isBreak ch = true → next ≠ some ' ') : Kept (g.add ch) next := by
  obtain ⟨spaces, broken, first, others⟩ := g
  rcases hch with rfl | hch
  · cases broken with
    | false => exact ⟨fun _ => h.fresh rfl, fun _ _ => hspace rfl, nofun⟩
    | true => exact absurd rfl (h.broken rfl).1
  · have hsep : isBreak ch = true := by rcases hch with rfl | rfl <;> decide
    have hchars : (Text.breakChars ch).head? ≠ some '\n' := by rcases hch with rfl | rfl <;> decide
    cases broken with
    | false =>
      have hadd : Gap.add ⟨spaces, false, first, others⟩ ch =
          ⟨[], true, Text.breakChars ch, others⟩ := by simp [Gap.add, hsep]
      rw [hadd]
      exact .of_broken (hbreak hsep) hchars
    | true =>
      have hadd : Gap.add ⟨spaces, true, first, others⟩ ch =
          ⟨spaces, true, first, Text.breakChars ch ++ others⟩ := by simp [Gap.add, hsep]
      rw [hadd]
      exact .of_broken (hbreak hsep) (h.broken rfl).2

/-! ### Single quotes -/

/-- The row of a text between single quotes; a line that is not empty is indented by `margin`. -/
def singleRow (margin : Nat) : List Char → List Piece
  | [] => []
  | ch :: rest =>
    (if isBreak ch then .blank ch (if rest.head?.any isBreak then 0 else margin)
      else if ch = ' ' then .blank ch 0
      else .char (doubled ch) ch) :: singleRow margin rest

/-- A text in which no space stands beside a break, and only separators break lines. -/
structure Spaced (text : List Char) : Prop where
  breaks : ∀ ch ∈ text, isBreak ch = true → ch = '\u2028' ∨ ch = '\u2029'
  noTab : '\t' ∉ text
  breakSpace : Features.adjacent isBreak (· = ' ') text = false
  spaceBreak : Features.adjacent (· = ' ') isBreak text = false

theorem Spaced.tail {ch : Char} {text : List Char} (h : Spaced (ch :: text)) : Spaced text where
  breaks := fun d hd => h.breaks d (List.mem_cons_of_mem _ hd)
  noTab := mt (List.mem_cons_of_mem _) h.noTab
  breakSpace := (Bool.or_eq_false_iff.1 h.breakSpace).2
  spaceBreak := (Bool.or_eq_false_iff.1 h.spaceBreak).2

theorem Spaced.next {ch : Char} {text : List Char} (h : Spaced (ch :: text)) :
    (ch = ' ' → text.head?.any isBreak = false) ∧ (isBreak ch = true → text.head? ≠ some ' ') := by
  have hbreakSpace := (Bool.or_eq_false_iff.1 h.breakSpace).1
  have hspaceBreak := (Bool.or_eq_false_iff.1 h.spaceBreak).1
  cases text with
  | nil => exact ⟨fun _ => rfl, fun _ => nofun⟩
  | cons d text =>
    refine ⟨fun hspace => ?_, fun hbreak hspace => ?_⟩
    · simpa [hspace] using hspaceBreak
    · simp [hbreak, Option.some.inj hspace] at hbreakSpace

theorem text?_singleRow {margin : Nat} (hmargin : margin ≠ 0) {text : List Char} (h : Spaced text) :
    ∀ {g : Gap} {atStart : Bool}, Kept g text.head? →
      (atStart = true → text.head?.any isBreak = true) →
      text? atStart g (singleRow margin text) = some (g.reversedText.reverse ++ text) := by
  induction text with
  | nil =>
    intro g atStart _ _
    rw [singleRow, text?, List.append_nil]
  | cons ch text ih =>
    intro g atStart hkept hstart
    have hrest := @ih h.tail
    obtain ⟨hspaceNext, hbreakNext⟩ := h.next
    have hblank : IsKeptBlank ch → ∀ {atStart' : Bool},
        (atStart' = true → text.head?.any isBreak = true) →
        text? atStart' (g.add ch) (singleRow margin text) =
          some (g.reversedText.reverse ++ ch :: text) := by
      intro hch atStart' hstart'
      rw [hrest (hkept.add hch hspaceNext hbreakNext) hstart', hkept.reversedText_add hch]
      simp
    rw [singleRow]
    split
    next hbreak =>
      rw [text?, hblank (.inr (h.breaks ch List.mem_cons_self hbreak))]
      intro hzero
      split at hzero
      · assumption
      · simp [hmargin] at hzero
    next hbreak =>
      split
      next hspace =>
        rw [text?, hblank (.inl hspace)]
        simp [hbreak]
      next hspace =>
        have hfalse : atStart = false := by
          refine Bool.eq_false_iff.2 fun htrue => hbreak ?_
          simpa using hstart htrue
        have hnext : text? false .empty (singleRow margin text) = some text :=
          hrest (kept_empty _) Bool.noConfusion
        rw [text?, hfalse, hnext]
        simp

/-- The first line of a quoted text goes on with what was read of it. -/
theorem exists_singleQuoted (acc text : List Char) : ∃ l ls more,
    singleQuoted.go acc text = l :: ls ∧ l.text = acc.reverse ++ more := by
  induction text generalizing acc with
  | nil => exact ⟨_, [], ['\''], rfl, List.reverse_cons⟩
  | cons ch text ih =>
    rw [singleQuoted.go]
    split
    next => exact ⟨_, _, [], rfl, (List.append_nil _).symm⟩
    next =>
      split
      next =>
        obtain ⟨l, ls, more, hlines, htext⟩ := ih ('\'' :: '\'' :: acc)
        exact ⟨l, ls, '\'' :: '\'' :: more, hlines, by simpa using htext⟩
      next =>
        obtain ⟨l, ls, more, hlines, htext⟩ := ih (ch :: acc)
        exact ⟨l, ls, ch :: more, hlines, by simpa using htext⟩

/-- The first line of a further part of a quoted text is empty exactly in front of a break. -/
theorem exists_singleQuoted_nil (text : List Char) : ∃ l ls,
    singleQuoted.go [] text = l :: ls ∧ l.text.isEmpty = text.head?.any isBreak := by
  cases text with
  | nil => exact ⟨_, [], rfl, rfl⟩
  | cons ch text =>
    rw [singleQuoted.go]
    split
    next hbreak => exact ⟨_, _, rfl, hbreak.symm⟩
    next hbreak =>
      have hacc : ∀ acc : List Char, acc ≠ [] → ∃ l ls,
          singleQuoted.go acc text = l :: ls ∧ l.text.isEmpty = (some ch).any isBreak := by
        intro acc hne
        obtain ⟨l, ls, more, hlines, htext⟩ := exists_singleQuoted acc text
        exact ⟨l, ls, hlines, by simp [htext, hne, hbreak]⟩
      split
      next => exact hacc _ (List.cons_ne_nil _ _)
      next => exact hacc _ (List.cons_ne_nil _ _)

/-- The lines of a text between single quotes are its row. -/
theorem joined_singleQuoted (margin : Nat) (text : List Char) : ∀ head acc : List Char,
    joined (behind head margin (singleQuoted.go acc text)) =
      head ++ (acc.reverse ++ (writtenAll (singleRow margin text) ++ ['\'', '\n'])) := by
  induction text with
  | nil =>
    intro head acc
    simp [singleQuoted.go, behind, joined, singleRow, Piece.writtenAll_nil, Line.of]
  | cons ch text ih =>
    intro head acc
    rw [singleQuoted.go, singleRow]
    split
    next hbreak =>
      obtain ⟨l, ls, hlines, hempty⟩ := exists_singleQuoted_nil text
      have hrest := joined_indent margin l ls
      rw [← hlines, ih, hempty] at hrest
      rw [behind, joined_cons, hrest]
      split <;> simp [Piece.written]
    next hbreak =>
      split
      next hquote =>
        subst hquote
        rw [ih]
        simp [Piece.written, doubled]
      next hquote =>
        rw [ih]
        split <;> simp [Piece.written, doubled, hquote]

/-- A text between single quotes. -/
theorem quoted_singleRow {margin : Nat} (hmargin : margin ≠ 0) {text : List Char} (h : Spaced text) :
    Quoted true (singleRow margin text) text where
  fits := by
    induction text with
    | nil => exact List.forall_mem_nil _
    | cons ch text ih =>
      refine List.forall_mem_cons.2 ⟨?_, ih h.tail⟩
      split
      next hbreak =>
        refine ⟨IsKeptBlank.separates (.inr (h.breaks ch List.mem_cons_self hbreak)), fun hnot => ?_⟩
        rw [hbreak] at hnot
        cases hnot
      next hbreak =>
        split
        next hspace => exact ⟨.inl hspace, fun _ => rfl⟩
        next hspace =>
          unfold doubled
          split
          next hquote =>
            subst hquote
            exact Text.spells_quote
          next hquote =>
            refine Text.spells_self ?_ hquote
            have htab : ch ≠ '\t' := by
              rintro rfl
              exact h.noTab List.mem_cons_self
            simp [isBlank, isSpace, hspace, htab, hbreak]
  reads := text?_singleRow hmargin h (kept_empty _) nofun

/-! ### Double quotes -/

/-- The row of a text in which every character but a space is spelled. -/
def spelledRow (spell : Char → List Char) (text : List Char) : List Piece :=
  text.map fun ch => if ch = ' ' then .blank ch 0 else .char (spell ch) ch

theorem text?_spelledRow (spell : Char → List Char) (text : List Char) {g : Gap}
    (hg : g.broken = false) :
    text? false g (spelledRow spell text) = some (g.reversedText.reverse ++ text) := by
  induction text generalizing g with
  | nil => rw [spelledRow, List.map_nil, text?, List.append_nil]
  | cons ch text ih =>
    rw [spelledRow, List.map_cons]
    split
    next hspace =>
      subst hspace
      have hadd : g.add ' ' = { g with spaces := ' ' :: g.spaces } := by
        simp [Gap.add, hg, isBreak]
      have hrest := @ih (g.add ' ') (by rw [hadd]; exact hg)
      have hnot : (isBreak ' ' && 0 == 0) = false := by decide
      rw [text?, hnot]
      refine hrest.trans ?_
      rw [hadd]
      simp [Gap.reversedText, hg]
    next hspace =>
      have hrest := @ih .empty rfl
      rw [text?]
      simp only [Bool.false_and, Bool.false_eq_true, if_false]
      rw [show text? false .empty (List.map _ text) = _ from hrest]
      rfl

/-- A text between double quotes. -/
theorem quoted_spelledRow {spell : Char → List Char} {text : List Char}
    (h : ∀ ch ∈ text, ch ≠ ' ' → Piece.Spells false (spell ch) ch) :
    Quoted false (spelledRow spell text) text where
  fits := by
    intro piece hpiece
    obtain ⟨ch, hch, rfl⟩ := List.mem_map.1 hpiece
    split
    next hspace => exact ⟨.inl hspace, fun _ => rfl⟩
    next hspace => exact h ch hch hspace
  reads := text?_spelledRow spell text rfl

theorem writtenAll_spelledRow {spell : Char → List Char} (hspace : spell ' ' = [' '])
    (text : List Char) : writtenAll (spelledRow spell text) = text.flatMap spell := by
  rw [writtenAll, spelledRow, List.flatMap_map]
  congr 1
  funext ch
  split
  next h =>
    subst h
    exact hspace.symm
  next => rfl

end Workflow.Yaml
