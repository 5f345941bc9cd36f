import Mathlib.Data.Bool.AllAny
import Workflow.Proofs.Yaml.Quoted
import Workflow.Yaml.Style

/-!
# Escapes between quotes

Every character that is written between quotes reads as itself: doubled single quotes, the escapes
of `Yaml.escape`, and those of JSON, which are YAML escapes as well.
-/

namespace Workflow.Yaml.Text

/-! ### Characters that stand for themselves -/

theorem spells_self {single : Bool} {ch : Char} (hblank : isBlank ch = false)
    (hne : if single then ch ≠ '\'' else ch ≠ '"' ∧ ch ≠ '\\') :
    Piece.Spells single [ch] ch where
  ne_nil := List.cons_ne_nil _ _
  noBlank := fun d hd => List.mem_singleton.1 hd ▸ hblank
  read := by
    intro fuel acc c more hc
    have hskip : c.skip 1 = c.past [ch] := Cursor.skip_one hc (isBlank_eq_false hblank).2
    have hrest : c.rest = ch :: more := hc
    have hword : (isSpace ch || isBreak ch) = false := hblank
    rw [quotedWord]
    cases single <;> simp_all

theorem spells_quote : Piece.Spells true ['\'', '\''] '\'' where
  ne_nil := List.cons_ne_nil _ _
  noBlank := List.all_iff_forall_prop.1 (by decide)
  read := by
    intro fuel acc c more hc
    have hskip : c.skip 2 = c.past ['\'', '\''] :=
      Cursor.skip_eq_past hc (List.all_iff_forall_prop.1 (by decide))
    have hrest : c.rest = '\'' :: '\'' :: more := hc
    have hword : (isSpace '\'' || isBreak '\'') = false := by decide
    rw [quotedWord]
    simp [hrest, hword, hskip]

/-- An escape reads as the character that `escape?` gives it. -/
theorem spells_escape {spelled : List Char} {ch : Char} (hne : spelled ≠ [])
    (hblank : ∀ d ∈ spelled, isBlank d = false)
    (hread : ∀ (c : Cursor) (more : List Char), c.rest = spelled ++ more →
      escape? c = some (ch, c.past spelled)) :
    Piece.Spells false ('\\' :: spelled) ch where
  ne_nil := List.cons_ne_nil _ _
  noBlank := List.forall_mem_cons.2 ⟨by decide, hblank⟩
  read := by
    intro fuel acc c more hc
    have hrest : c.rest = '\\' :: (spelled ++ more) := hc
    have hskip : c.skip 1 = c.past ['\\'] := Cursor.skip_one hrest (by decide)
    have hnext : escape? (c.past ['\\']) = some (ch, (c.past ['\\']).past spelled) :=
      hread _ more (Cursor.rest_past_of_eq hrest)
    have hhead : (spelled ++ more).head?.any isBreak = false := by
      cases spelled with
      | nil => exact absurd rfl hne
      | cons d spelled => exact (isBlank_eq_false (hblank d List.mem_cons_self)).2
    have hword : (isSpace '\\' || isBreak '\\') = false := by decide
    rw [quotedWord]
    simp only [hrest, hword, Bool.false_eq_true, if_false, hhead, hskip, hnext]
    simp [← Cursor.past_append]

/-! ### Numeric escapes -/

/-- What `hexValue?` reads of a digit in either case. -/
theorem hexValue?_digitChar : ∀ d < 16,
    Json.Quoted.hexValue? (Nat.digitChar d) = some d ∧
      Json.Quoted.hexValue? (Nat.digitChar d).toUpper = some d ∧
      isBlank (Nat.digitChar d) = false ∧ isBlank (Nat.digitChar d).toUpper = false := by
  decide +kernel

theorem hex?_append (digits : List Char) (d : Char) :
    hex? (digits ++ [d]) =
      (hex? digits).bind fun n => (Json.Quoted.hexValue? d).map (16 * n + ·) := by
  simp only [hex?, List.foldlM_append, List.foldlM_cons, List.foldlM_nil, Option.bind_eq_bind]
  refine Option.bind_congr fun n _ => ?_
  cases Json.Quoted.hexValue? d <;> rfl

theorem hex?_hexNumeral {width n : Nat} (h : n < Nat.pow 16 width) :
    hex? (hexNumeral width n) = some n := by
  induction width generalizing n with
  | zero => obtain rfl : n = 0 := by simpa [Nat.pow] using h
            rfl
  | succ width ih =>
      have hdiv : n / 16 < Nat.pow 16 width :=
        Nat.div_lt_of_lt_mul (by rw [Nat.mul_comm]; exact h)
      have hdigit := (hexValue?_digitChar (n % 16) (Nat.mod_lt n (by decide))).2.1
      rw [hexNumeral, hex?_append, ih hdiv, hdigit]
      simp only [Option.bind_some, Option.map_some, Option.some.injEq]
      omega

theorem length_hexNumeral (width n : Nat) : (hexNumeral width n).length = width := by
  induction width generalizing n with
  | zero => rfl
  | succ width ih => rw [hexNumeral, List.length_append, ih, List.length_singleton]

theorem noBlank_hexNumeral {width n : Nat} : ∀ d ∈ hexNumeral width n, isBlank d = false := by
  induction width generalizing n with
  | zero => exact fun d hd => absurd hd List.not_mem_nil
  | succ width ih =>
      intro d hd
      rcases List.mem_append.1 hd with hd | hd
      · exact ih d hd
      · rw [List.mem_singleton.1 hd]
        exact (hexValue?_digitChar (n % 16) (Nat.mod_lt n (by decide))).2.2.2

theorem escapeNumber?_eq {digits : List Char} {ch : Char} {c : Cursor} {more : List Char}
    (hread : hex? digits = some ch.toNat) (hblank : ∀ d ∈ digits, isBlank d = false)
    (hc : c.rest = digits ++ more) :
    escapeNumber? digits.length c = some (ch, c.past digits) := by
  have hskip : c.skip digits.length = c.past digits :=
    Cursor.skip_eq_past hc fun d hd => (isBlank_eq_false (hblank d hd)).2
  have hvalid : ¬ ((0xD800 ≤ ch.toNat ∧ ch.toNat ≤ 0xDFFF) ∨ 0x10FFFF < ch.toNat) := by
    have := ch.valid
    simp only [UInt32.isValidChar, Nat.isValidChar, Char.toNat] at this ⊢
    omega
  rw [escapeNumber?, hc, List.take_left, if_neg (Nat.lt_irrefl _), hread]
  simp [hvalid, hskip, Char.ofNat_toNat]

/-- An escape by a number: the letter that tells the width, and the digits. -/
theorem spells_number {letter : Char} {digits : List Char} {ch : Char}
    (hletter : letter = 'x' ∧ digits.length = 2 ∨ letter = 'u' ∧ digits.length = 4 ∨
      letter = 'U' ∧ digits.length = 8)
    (hread : hex? digits = some ch.toNat) (hblank : ∀ d ∈ digits, isBlank d = false) :
    Piece.Spells false ('\\' :: letter :: digits) ch := by
  have hletterBlank : isBlank letter = false := by
    rcases hletter with ⟨rfl, -⟩ | ⟨rfl, -⟩ | ⟨rfl, -⟩ <;> decide
  refine spells_escape (List.cons_ne_nil _ _) (List.forall_mem_cons.2 ⟨hletterBlank, hblank⟩) ?_
  intro c more hc
  have hrest : c.rest = letter :: (digits ++ more) := hc
  have hskip : c.skip 1 = c.past [letter] :=
    Cursor.skip_one hrest (isBlank_eq_false hletterBlank).2
  have hnumber := escapeNumber?_eq hread hblank (@Cursor.rest_past_of_eq _ [letter] _ hrest)
  rw [escape?, hrest]
  rcases hletter with ⟨rfl, hlength⟩ | ⟨rfl, hlength⟩ | ⟨rfl, hlength⟩ <;>
    simpa [hskip, hlength, Cursor.past_cons] using hnumber

/-! ### The escapes of YAML and of JSON -/

theorem escape?_letter {ch letter : Char} (h : escapeLetter? ch = some letter) :
    isBlank letter = false ∧ ∀ (c : Cursor) (more : List Char), c.rest = [letter] ++ more →
      escape? c = some (ch, c.past [letter]) := by
  have hblank : isBlank letter = false := by
    unfold escapeLetter? at h
    split at h <;> first | (obtain rfl := Option.some.inj h; decide) | cases h
  refine ⟨hblank, fun c more hc => ?_⟩
  have hrest : c.rest = letter :: more := hc
  have hskip : c.skip 1 = c.past [letter] := Cursor.skip_one hrest (isBlank_eq_false hblank).2
  unfold escapeLetter? at h
  unfold escape?
  rw [hrest, ← hskip]
  split at h <;> first | (obtain rfl := Option.some.inj h; rfl) | cases h

/-- Every character but the space reads as itself between double quotes. -/
theorem spells_doubleQuoted {ch : Char} (h : ch ≠ ' ') : Piece.Spells false (escape ch) ch := by
  unfold escape
  split
  next hself =>
    simp only [Bool.and_eq_true, Bool.not_eq_true', decide_eq_true_eq, ne_eq] at hself
    obtain ⟨⟨⟨hprint, hbreak⟩, hquote⟩, hslash⟩ := hself
    refine spells_self ?_ ⟨hquote, hslash⟩
    have htab : ch ≠ '\t' := by
      rintro rfl
      cases hprint
    simp [isBlank, isSpace, hbreak, h, htab]
  next =>
    split
    next letter hletter =>
      obtain ⟨hblank, hread⟩ := escape?_letter hletter
      exact spells_escape (List.cons_ne_nil _ _) (by simpa using hblank) hread
    next =>
      have hvalid : ch.toNat < 0x110000 := by
        have := ch.valid
        simp only [UInt32.isValidChar, Nat.isValidChar, Char.toNat] at this ⊢
        omega
      split
      next hlt =>
        exact spells_number (.inl ⟨rfl, length_hexNumeral 2 _⟩)
          (hex?_hexNumeral (by simpa [Nat.pow] using hlt)) noBlank_hexNumeral
      next =>
        split
        next hlt =>
          exact spells_number (.inr (.inl ⟨rfl, length_hexNumeral 4 _⟩))
            (hex?_hexNumeral (by simpa [Nat.pow] using hlt)) noBlank_hexNumeral
        next =>
          have hpow : Nat.pow 16 8 = 0x100000000 := rfl
          exact spells_number (.inr (.inr ⟨rfl, length_hexNumeral 8 _⟩))
            (hex?_hexNumeral (by omega)) noBlank_hexNumeral

/-- Whether a character stands as a blank in a JSON string: it is not escaped and YAML reads it as
one. -/
def isRawBlank (ch : Char) : Bool :=
  ch = ' ' || ch = '\u0085' || ch = '\u2028' || ch = '\u2029'

/-- Every other character reads as itself in a JSON string. -/
theorem spells_jsonQuoted {ch : Char} (h : isRawBlank ch = false) :
    Piece.Spells false (Json.Quoted.escape ch) ch := by
  unfold Json.Quoted.escape
  split
  case h_8 hquote hslash hfeed hreturn htab hback hform =>
    split
    next hlt =>
      obtain ⟨hhigh, -, hhighBlank, -⟩ := hexValue?_digitChar (ch.toNat / 16) (by omega)
      obtain ⟨hlow, -, hlowBlank, -⟩ := hexValue?_digitChar (ch.toNat % 16) (by omega)
      have hzero : Json.Quoted.hexValue? '0' = some 0 := by decide
      refine spells_number (.inr (.inl ⟨rfl, rfl⟩)) ?_ ?_
      · simp [hex?, Json.Quoted.hexDigit, hhigh, hlow, hzero]
        omega
      · simp [Json.Quoted.hexDigit, hhighBlank, hlowBlank]
        decide
    next hge =>
      refine spells_self ?_ ⟨hquote, hslash⟩
      simp only [isRawBlank, Bool.or_eq_false_iff, decide_eq_false_iff_not] at h
      obtain ⟨⟨⟨hspace, hnext⟩, hline⟩, hparagraph⟩ := h
      simp only [isBlank, isSpace, isBreak, Bool.or_eq_false_iff, decide_eq_false_iff_not]
      exact ⟨⟨hspace, htab⟩, ⟨⟨⟨hfeed, hreturn⟩, hnext⟩, hline⟩, hparagraph⟩
  all_goals
    refine spells_escape (List.cons_ne_nil _ _) (List.all_iff_forall_prop.1 (by decide)) fun c more hc => ?_
    have hrest : c.rest = _ :: more := hc
    rw [escape?, hrest, Cursor.skip_one hrest (by decide)]
    rfl

end Workflow.Yaml.Text
