import Workflow.Proofs.Document.Slots
import Workflow.Proofs.Yaml.Keys

/-!
# The layout of a text with scripts

A value with placeholders is written as lines, and its scripts are put in place line by line; what comes
out is the text of a layout of the value with its scripts (`exists_layout`). One lemma for each way lines
are put together (`Comes.behind`, `Comes.onward`) says what becomes of their text.
-/

namespace Workflow

namespace Script

/-- A line feed ends the lines of the text in front of it. -/
theorem linesWithEnds_concat_append (text more : List Char) :
    linesWithEnds (text ++ ['\n'] ++ more) = linesWithEnds (text ++ ['\n']) ++ linesWithEnds more := by
  induction text with
  | nil => simp [linesWithEnds]
  | cons c text ih =>
    rw [List.cons_append, List.cons_append, linesWithEnds, linesWithEnds, ih]
    split
    · rfl
    · cases hlines : linesWithEnds (text ++ ['\n']) with
      | nil =>
        have hflat := linesWithEnds_flatten (text ++ ['\n'])
        simp [hlines] at hflat
      | cons l ls => rfl

end Script

namespace Yaml

theorem indent_indent (m n : Nat) (l : Line) : (l.indent n).indent m = l.indent (m + n) := by
  unfold Line.indent
  by_cases hempty : l.text = []
  · simp [hempty]
  · simp [hempty, ← List.replicate_append_replicate]

theorem map_indent_zero (ls : List Line) : ls.map (Line.indent 0) = ls := by
  refine List.map_id'' (fun l => ?_) ls
  unfold Line.indent
  split <;> rfl

theorem behind_behind (before head : List Char) (column n : Nat) (ls : List Line) :
    behind before column (behind head n ls) = behind (before ++ head) (column + n) ls := by
  cases ls with
  | nil => rfl
  | cons l ls => simp [behind, indent_indent]

theorem behind_append (before : List Char) (column : Nat) {ls : List Line} (hne : ls ≠ [])
    (more : List Line) :
    behind before column (ls ++ more) = behind before column ls ++ more.map (Line.indent column) := by
  obtain ⟨l, ls, rfl⟩ := List.exists_cons_of_ne_nil hne
  simp [behind]

end Yaml

namespace Document

open Script (Free keyColumn startsValue)
open Yaml (Atom Layout Line Written behind joined joined_append joined_indent isAllowed spaces scalarLines
  lines itemLines fieldLines EndsBlock ReadsBack)

section

variable (scripts : List String) (indent : Nat)

/-- A text with the script of every line in place. -/
def spliced (text : List Char) : List Char :=
  (Script.linesWithEnds text).flatMap (spliceLine scripts indent)

theorem spliced_append {text : List Char} (h : text.getLast? = some '\n') (more : List Char) :
    spliced scripts indent (text ++ more) =
      spliced scripts indent text ++ spliced scripts indent more := by
  obtain ⟨front, rfl⟩ := List.getLast?_eq_some_iff.1 h
  rw [spliced, Script.linesWithEnds_concat_append, List.flatMap_append]
  rfl

/-- A text without placeholders is copied. -/
theorem spliced_of_free {text : List Char} (h : Free placeholderStart text) :
    spliced scripts indent text = text := by
  have hlines : ∀ line ∈ Script.linesWithEnds text, spliceLine scripts indent line = id line := by
    intro line hline
    refine spliceLine_of_free (h.of_infix ?_)
    obtain ⟨front, back, hsplit⟩ := List.append_of_mem hline
    have hflat := Script.linesWithEnds_flatten text
    rw [hsplit, List.flatten_append, List.flatten_cons] at hflat
    exact ⟨front.flatten, back.flatten, by simpa using hflat⟩
  rw [spliced, List.flatMap_congr hlines, List.flatMap_id, Script.linesWithEnds_flatten]

/-- What becomes of the text of lines, the first one behind `before` and the others at a column. -/
structure Comes (before : List Char) (column : Nat) (ls : List Line) (text : List Char) : Prop where
  spliced : spliced scripts indent (joined (behind before column ls)) = before ++ text
  ends : (joined (behind before column ls)).getLast? = some '\n'
  allowed : ∀ ch ∈ text, isAllowed ch = true

end

variable {scripts : List String} {indent column : Nat} {before text : List Char} {ls : List Line}

/-- Lines of which the first one is not empty. -/
def Headed (ls : List Line) : Prop := ∃ l rest, ls = l :: rest ∧ l.text ≠ []

theorem Headed.append (h : Headed ls) (more : List Line) : Headed (ls ++ more) := by
  obtain ⟨l, rest, rfl, hl⟩ := h
  exact ⟨l, rest ++ more, rfl, hl⟩

theorem headed_behind {head : List Char} (hhead : head ≠ []) (n : Nat) (hne : ls ≠ []) :
    Headed (behind head n ls) := by
  obtain ⟨l, rest, rfl⟩ := List.exists_cons_of_ne_nil hne
  exact ⟨_, _, rfl, List.append_ne_nil_of_left_ne_nil hhead _⟩

namespace Comes

theorem ne_nil (h : Comes scripts indent before column ls text) : ls ≠ [] := by
  rintro rfl
  cases h.ends

/-- The head of a line stands in front of the text. -/
theorem behind {head : List Char} {n : Nat}
    (h : Comes scripts indent (before ++ head) (column + n) ls text)
    (hhead : ∀ ch ∈ head, isAllowed ch = true) :
    Comes scripts indent before column (behind head n ls) (head ++ text) where
  spliced := by rw [Yaml.behind_behind, h.spliced, List.append_assoc]
  ends := by
    rw [Yaml.behind_behind]
    exact h.ends
  allowed := List.forall_mem_append.2 ⟨hhead, h.allowed⟩

/-- Lines that are moved right begin with spaces. -/
theorem append {n : Nat} {more : List Line} {other : List Char}
    (h : Comes scripts indent before column ls text) (hheaded : Headed more)
    (hmore : Comes scripts indent (spaces (column + n)) (column + n) more other) :
    Comes scripts indent before column (ls ++ more.map (Line.indent n))
      (text ++ (spaces (column + n) ++ other)) := by
  have hjoined : joined (Yaml.behind before column (ls ++ more.map (Line.indent n))) =
      joined (Yaml.behind before column ls) ++
        joined (Yaml.behind (spaces (column + n)) (column + n) more) := by
    obtain ⟨l, rest, rfl, hl⟩ := hheaded
    have hindent : (List.map (Line.indent n) (l :: rest)).map (Line.indent column) =
        (l :: rest).map (Line.indent (column + n)) := by simp [Yaml.indent_indent]
    have hempty : l.text.isEmpty = false := by simpa using hl
    rw [Yaml.behind_append before column h.ne_nil, joined_append, hindent, joined_indent, hempty,
      if_neg Bool.false_ne_true]
  refine ⟨?_, ?_, List.forall_mem_append.2 ⟨h.allowed, List.forall_mem_append.2 ⟨fun ch hch => ?_,
    hmore.allowed⟩⟩⟩
  · rw [hjoined, spliced_append _ _ h.ends, h.spliced, hmore.spliced, List.append_assoc]
  · rw [hjoined, List.getLast?_append, hmore.ends]
    rfl
  · rw [Yaml.mem_spaces hch]
    decide

end Comes

theorem free_joined (h : ∀ l ∈ ls, l.Clear) : Free placeholderStart (joined ls) := by
  induction ls with
  | nil => decide
  | cons l ls ih =>
    obtain ⟨hl, hls⟩ := List.forall_mem_cons.1 h
    rw [Yaml.joined_cons]
    exact hl.text.free.append_cons (ending_not_mem_placeholderStart hl) (ih hls)

theorem clear_behind (h : ∀ l ∈ ls, l.Clear) (n : Nat) : ∀ l ∈ behind [] n ls, l.Clear := by
  cases ls with
  | nil => nofun
  | cons l ls =>
    obtain ⟨hl, hls⟩ := List.forall_mem_cons.1 h
    refine List.forall_mem_cons.2 ⟨hl, List.forall_mem_map.2 fun l' hl' => ?_⟩
    unfold Line.indent
    split
    · exact hls l' hl'
    · exact ⟨(hls l' hl').text.spaces n, (hls l' hl').ending⟩

/-- Lines without placeholders are copied. -/
theorem comes_of_clear (hbefore : Opens before) (h : ∀ l ∈ ls, l.Clear)
    (hends : (joined (behind [] column ls)).getLast? = some '\n')
    (hallowed : ∀ ch ∈ joined (behind [] column ls), isAllowed ch = true) :
    Comes scripts indent before column ls (joined (behind [] column ls)) := by
  have hne : ls ≠ [] := by
    rintro rfl
    cases hends
  have hjoined : joined (behind before column ls) = before ++ joined (behind [] column ls) := by
    obtain ⟨l, ls, rfl⟩ := List.exists_cons_of_ne_nil hne
    simp [behind]
  refine ⟨?_, ?_, hallowed⟩
  · rw [hjoined]
    exact spliced_of_free _ _ (hbefore.free _ (free_joined (clear_behind h column)))
  · rw [hjoined, List.getLast?_append, hends]
    rfl

end Document

end Workflow
