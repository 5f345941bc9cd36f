import Workflow.Text.Blank
import Workflow.Yaml.Printer

/-!
# The YAML text of a value is not blank

A reader of YAML text takes blanks alone for no value, so it matters that no value but a string is
written as blanks (`print_visible`): numerals hold digits or a point, the words of the constants and
the brackets of empty containers show, and a container that is not empty starts with a dash, a
question mark or a key with its colon. A string is another matter, since it can be written plain.
-/

namespace Workflow

open Text (isBlank)

theorem Text.isBlank_of_isDigit {c : Char} (h : c.isDigit = true) : isBlank c = false := by
  have hlow : 48 ≤ c.toNat := by simpa using (Char.isDigit_iff_toNat.1 h).1
  have hhigh : c.toNat ≤ 57 := by simpa using (Char.isDigit_iff_toNat.1 h).2
  simp [isBlank]
  omega

/-- A text in which some character is not blank. -/
def Text.Visible (text : List Char) : Prop := ∃ c ∈ text, isBlank c = false

namespace Text.Visible

variable {text other : List Char}

theorem not_all_isBlank (h : Visible text) : text.all isBlank = false := by
  obtain ⟨c, hc, hblank⟩ := h
  exact List.all_eq_false.2 ⟨c, hc, by simp [hblank]⟩

theorem append_left (h : Visible text) (other : List Char) : Visible (text ++ other) := by
  obtain ⟨c, hc, hblank⟩ := h
  exact ⟨c, List.mem_append_left other hc, hblank⟩

theorem append_right (h : Visible text) (other : List Char) : Visible (other ++ text) := by
  obtain ⟨c, hc, hblank⟩ := h
  exact ⟨c, List.mem_append_right other hc, hblank⟩

theorem of_head {c : Char} (h : isBlank c = false) (rest : List Char) : Visible (c :: rest) :=
  ⟨c, List.mem_cons_self, h⟩

end Text.Visible

open Text (Visible)

/-! ### Numerals -/

namespace FloatNotation

theorem digitsOf_visible (n : Nat) : Visible (digitsOf n) := by
  obtain ⟨c, hc⟩ := List.exists_mem_of_ne_nil _ (Nat.toDigits_ne_nil (n := n) (b := 10))
  have hdigit := Nat.isDigit_of_mem_toDigits (by decide) (by decide) hc
  exact ⟨c, hc, Text.isBlank_of_isDigit hdigit⟩

theorem placed_visible (digits : List Char) (point : Int) : Visible (placed digits point) := by
  have hpoint : '.' ∈ placed digits point := by
    unfold placed
    split
    · simp
    · split <;> simp
  exact ⟨'.', hpoint, by decide⟩

theorem scientific_visible (fmt : FloatNotation) (digits : List Char) (point : Int) :
    Visible (fmt.scientific digits point) :=
  (digitsOf_visible _).append_right _

theorem write_visible (fmt : FloatNotation) (negative : Bool) (d : DecimalNumeral) :
    Visible (fmt.write negative d) := by
  unfold write
  dsimp only
  split
  · exact .of_head (by decide) _
  · split
    · exact .of_head (by decide) _
    · split
      · exact placed_visible _ _
      · split
        · exact placed_visible _ _
        · exact scientific_visible _ _ _

theorem float_visible (fmt : FloatNotation) (w : FloatWidth) (x : BinaryFloat) :
    Visible (fmt.float w x) :=
  fmt.write_visible x.negative (w.shortest fmt.tie x)

end FloatNotation

namespace Yaml

theorem numberChars_visible (n : Number) : Visible (numberChars n) := by
  cases n with
  | int n =>
    rw [numberChars, Number.write]
    split
    · exact .of_head (by decide) _
    · exact FloatNotation.digitsOf_visible _
  | float x => exact floatLayout.float_visible .double x
  | single x => exact floatLayout.float_visible .single x

/-! ### Lines -/

/-- Lines one of which shows something. -/
def Shown (ls : List Line) : Prop := ∃ l ∈ ls, Visible l.text

theorem Shown.append_left {ls : List Line} (h : Shown ls) (other : List Line) :
    Shown (ls ++ other) := by
  obtain ⟨l, hl, hvisible⟩ := h
  exact ⟨l, List.mem_append_left other hl, hvisible⟩

theorem behind_eq_nil_iff {head : List Char} {n : Nat} {ls : List Line} :
    behind head n ls = [] ↔ ls = [] := by
  cases ls <;> simp [behind]

/-- What is written in front of the first line shows as soon as there is a line. -/
theorem shown_behind {head : List Char} (h : Visible head) (n : Nat) {ls : List Line}
    (hls : ls ≠ []) : Shown (behind head n ls) := by
  cases ls with
  | nil => exact absurd rfl hls
  | cons l rest => exact ⟨_, List.mem_cons_self, h.append_left l.text⟩

theorem singleQuoted_ne_nil (text : List Char) : singleQuoted text ≠ [] := by
  unfold singleQuoted
  generalize ['\''] = acc
  induction text generalizing acc with
  | nil => exact List.cons_ne_nil _ _
  | cons c rest ih =>
    rw [singleQuoted.go]
    split
    · exact List.cons_ne_nil _ _
    · split
      · exact ih _
      · exact ih _

theorem scalarLines_ne_nil (v : Json) : scalarLines v ≠ [] := by
  cases v with
  | str s =>
    rw [scalarLines]
    cases styleOf false s with
    | single => exact singleQuoted_ne_nil _
    | _ => exact List.cons_ne_nil _ _
  | bool b => cases b <;> exact List.cons_ne_nil _ _
  | _ => exact List.cons_ne_nil _ _

theorem shown_headed (key : String) (value : List Line) : Shown (headed key value) :=
  ⟨_, List.mem_cons_self, Visible.append_right (.of_head (by decide) []) _⟩

theorem shown_keyed (key : String) {value : List Line} (h : value ≠ []) :
    Shown (keyed key value) :=
  shown_behind (Visible.append_right (.of_head (by decide) _) _) 2 h

theorem shown_explicit (key : String) (value : List Line) : Shown (explicit key value) :=
  (shown_behind (.of_head (by decide) _) 2 (scalarLines_ne_nil (.str key))).append_left _

theorem shown_fieldLines (e : String × Json) (rest : List (String × Json)) :
    Shown (fieldLines (e :: rest)) := by
  obtain ⟨key, v⟩ := e
  unfold fieldLines
  refine Shown.append_left ?_ _
  split
  · split
    · exact shown_headed key _
    · exact shown_headed key _
    · exact shown_keyed key (scalarLines_ne_nil _)
  · exact shown_explicit key _

/-- A list starts with the first line of its first item, so the induction is on that item. -/
theorem lines_ne_nil : (v : Json) → lines v ≠ []
  | .arr (v :: rest) => by
    rw [lines, itemLines]
    exact List.append_ne_nil_of_left_ne_nil (mt behind_eq_nil_iff.1 (lines_ne_nil v)) _
  | .obj (e :: rest) => by
    obtain ⟨l, hl, -⟩ := shown_fieldLines e rest
    rw [lines]
    exact List.ne_nil_of_mem hl
  | .arr [] | .obj [] | .null | .bool _ | .num _ | .str _ => by
    rw [lines] <;> first | exact scalarLines_ne_nil _ | simp

/-- The lines of a value other than a string show something. -/
theorem shown_document {v : Json} (h : ∀ text, v ≠ .str text) : Shown (document v) := by
  cases v with
  | str text => exact absurd rfl (h text)
  | arr items =>
    cases items with
    | nil => exact ⟨.of "[]".toList, List.mem_cons_self, .of_head (by decide) _⟩
    | cons v rest =>
      rw [document, lines, itemLines]
      exact (shown_behind (.of_head (by decide) _) 2 (lines_ne_nil v)).append_left _
  | obj fields =>
    cases fields with
    | nil => exact ⟨.of ['\x7b', '\x7d'], List.mem_cons_self, .of_head (by decide) _⟩
    | cons e rest =>
      rw [document, lines]
      exact shown_fieldLines e rest
  | num n => exact ⟨.of (numberChars n), List.mem_cons_self, numberChars_visible n⟩
  | null => exact ⟨.of "null".toList, List.mem_cons_self, .of_head (by decide) _⟩
  | bool b =>
    cases b with
    | true => exact ⟨.of "true".toList, List.mem_cons_self, .of_head (by decide) _⟩
    | false => exact ⟨.of "false".toList, List.mem_cons_self, .of_head (by decide) _⟩

/-- The text of a value other than a string is not blank. -/
theorem print_visible {v : Json} (h : ∀ text, v ≠ .str text) : Visible (print v).toList := by
  obtain ⟨l, hl, c, hc, hblank⟩ := shown_document h
  rw [print, String.toList_ofList]
  exact ⟨c, List.mem_flatMap.2 ⟨l, hl, List.mem_append_left _ hc⟩, hblank⟩

end Yaml

end Workflow
