/-!
# Blanks and control characters

The white space of the Unicode standard, and the trimming of text that rests on it.
-/

namespace Workflow.Text

/-- White space as the Unicode standard has it. -/
def isBlank (c : Char) : Bool :=
  let n := c.toNat
  (0x09 ≤ n && n ≤ 0x0D) || n = 0x20 || n = 0x85 || n = 0xA0 || n = 0x1680 ||
    (0x2000 ≤ n && n ≤ 0x200A) || n = 0x2028 || n = 0x2029 || n = 0x202F || n = 0x205F ||
    n = 0x3000

/-- The control characters of the Unicode standard. -/
def isControl (c : Char) : Bool :=
  let n := c.toNat
  n < 0x20 || (0x7F ≤ n && n < 0xA0)

/-- A text without the characters at its end that satisfy `p`. -/
def dropEnd (p : Char → Bool) : List Char → List Char
  | [] => []
  | c :: rest =>
    match dropEnd p rest with
    | [] => if p c then [] else [c]
    | kept => c :: kept

/-- A text without blanks at its end. -/
def trimEnd (text : List Char) : List Char := dropEnd isBlank text

theorem dropEnd_prefix (p : Char → Bool) (text : List Char) :
    ∃ dropped, text = dropEnd p text ++ dropped ∧ ∀ c ∈ dropped, p c = true := by
  induction text with
  | nil => exact ⟨[], rfl, nofun⟩
  | cons c rest ih =>
    obtain ⟨dropped, hrest, hp⟩ := ih
    rw [dropEnd]
    split
    next h =>
      rw [h, List.nil_append] at hrest
      by_cases hc : p c = true
      · exact ⟨c :: rest, by simp [hc], by simpa [hc, hrest] using hp⟩
      · exact ⟨rest, by simp [hc], by simpa [hrest] using hp⟩
    next h => exact ⟨dropped, by rw [List.cons_append, ← hrest], hp⟩

end Workflow.Text
