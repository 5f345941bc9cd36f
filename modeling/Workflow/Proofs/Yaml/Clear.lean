import Mathlib.Data.Bool.AllAny
import Workflow.Document.Text
import Workflow.Proofs.Script.Search

/-!
# YAML text around placeholders

The quotes, escapes and blanks that are written around a text do not complete the start of a
placeholder: each begins with a character that placeholders do not have (`Clear.append_cons`,
`Free.flatMap`). So every line of a string without the start of a placeholder is clear of it, in every
style (`clear_styled`), and so is every numeral (`clear_numberChars`). A placeholder itself is a word
that begins with an underscore, and such a word is written as it is (`scalarLines_word`).
-/

namespace Workflow.Yaml

open Document (placeholderStart)
open Script (Free)

/-- A text on one line without the start of a placeholder. -/
structure Clear (text : List Char) : Prop where
  free : Free placeholderStart text
  line : '\n' ∉ text

namespace Clear

variable {text before behind : List Char}

theorem append_cons {c : Char} (hbefore : Clear before) (hbehind : Clear behind)
    (hc : c ∉ placeholderStart) (hline : c ≠ '\n') : Clear (before ++ c :: behind) where
  free := hbefore.free.append_cons hc hbehind.free
  line := by
    rw [List.mem_append, List.mem_cons, not_or, not_or]
    exact ⟨hbefore.line, hline.symm, hbehind.line⟩

/-- Text without the underscore that begins a placeholder. -/
theorem of_not_mem (h : '_' ∉ text) (hline : '\n' ∉ text) : Clear text :=
  ⟨.of_not_mem (by decide) h, hline⟩

theorem append_of_not_mem (hbehind : Clear behind) (h : '_' ∉ before) (hline : '\n' ∉ before) :
    Clear (before ++ behind) where
  free := .append_of_not_mem (by decide) h hbehind.free
  line := by
    rw [List.mem_append, not_or]
    exact ⟨hline, hbehind.line⟩

theorem spaces (h : Clear text) (n : Nat) : Clear (List.replicate n ' ' ++ text) := by
  refine h.append_of_not_mem ?_ ?_ <;>
  · rw [List.mem_replicate]
    exact fun hmem => absurd hmem.2 (by decide)

end Clear

/-- A clear text and a break behind it. -/
structure Line.Clear (l : Line) : Prop where
  text : Yaml.Clear l.text
  ending : isBreak l.ending = true

theorem Line.Clear.of {text : List Char} (h : Yaml.Clear text) : (Line.of text).Clear := ⟨h, rfl⟩

theorem not_mem_of_unbroken {text : List Char} (h : text.any isBreak = false) : '\n' ∉ text :=
  fun hmem => absurd rfl (List.any_eq_false.1 h '\n' hmem)

/-! ### Numerals -/

/-- What numerals are made of. -/
def InNumeral (c : Char) : Prop := c.isDigit = true ∨ c ∈ ['.', 'e', '-', '+']

instance (c : Char) : Decidable (InNumeral c) :=
  inferInstanceAs (Decidable (c.isDigit = true ∨ c ∈ ['.', 'e', '-', '+']))

theorem inNumeral_digitsOf {n : Nat} {c : Char} (h : c ∈ FloatNotation.digitsOf n) : InNumeral c :=
  .inl (Nat.isDigit_of_mem_toDigits (by decide) (by decide) h)

theorem inNumeral_zeros {n : Nat} {c : Char} (h : c ∈ FloatNotation.zeros n) : InNumeral c := by
  obtain rfl := (List.mem_replicate.1 h).2
  exact .inl (by decide)

theorem inNumeral_placed {digits : List Char} (h : ∀ c ∈ digits, InNumeral c) (point : Int) :
    ∀ c ∈ FloatNotation.placed digits point, InNumeral c := by
  have hzero : InNumeral '0' := .inl (by decide)
  have hpoint : InNumeral '.' := .inr (by decide)
  have hzeros := @inNumeral_zeros
  unfold FloatNotation.placed
  intro c hc
  split at hc
  · grind
  · split at hc <;> grind [List.mem_of_mem_take, List.mem_of_mem_drop]

theorem inNumeral_scientific (fmt : FloatNotation) {digits : List Char}
    (h : ∀ c ∈ digits, InNumeral c) (point : Int) :
    ∀ c ∈ fmt.scientific digits point, InNumeral c := by
  have hsigns : ∀ c ∈ ['.', 'e', '-', '+'], InNumeral c := fun c => .inr
  have hpower := fun (n : Nat) c => @inNumeral_digitsOf n c
  unfold FloatNotation.scientific
  intro c hc
  grind [List.mem_of_mem_take, List.mem_of_mem_drop]

theorem inNumeral_write (fmt : FloatNotation) (negative : Bool) (d : DecimalNumeral) :
    ∀ c ∈ fmt.write negative d, InNumeral c := by
  have hdigits : ∀ c ∈ FloatNotation.digitsOf d.digits, InNumeral c := fun c => inNumeral_digitsOf
  have hzero : ∀ c ∈ ['0', '.', '0'], InNumeral c := List.all_iff_forall_prop.1 (by decide)
  have hminus : InNumeral '-' := by decide
  have hplaced := fun point => inNumeral_placed hdigits point
  have hscientific := fun point => inNumeral_scientific fmt hdigits point
  unfold FloatNotation.write
  intro c hc
  grind

theorem inNumeral_numberChars (n : Number) : ∀ c ∈ numberChars n, InNumeral c := by
  cases n with
  | int n =>
    rw [numberChars, Number.write]
    split
    · intro c hc
      rcases List.mem_cons.1 hc with rfl | hc
      · decide
      · exact inNumeral_digitsOf hc
    · exact fun c => inNumeral_digitsOf
  | float x => exact inNumeral_write floatLayout x.negative _
  | single x => exact inNumeral_write floatLayout x.negative _

theorem clear_numberChars (n : Number) : Clear (numberChars n) :=
  .of_not_mem (fun h => absurd (inNumeral_numberChars n _ h) (by decide))
    fun h => absurd (inNumeral_numberChars n _ h) (by decide)

/-! ### Strings -/

/-- A line that was taken out of a text, with a break behind it. -/
structure Line.IsPart (l : Line) (text : List Char) : Prop where
  part : l.text <:+: text
  unbroken : l.text.any isBreak = false
  ending : isBreak l.ending = true

theorem Line.IsPart.mono {l : Line} {text whole : List Char} (h : l.IsPart text)
    (hpart : text <:+: whole) : l.IsPart whole := ⟨h.part.trans hpart, h.unbroken, h.ending⟩

theorem Line.IsPart.clear {l : Line} {text : List Char} (h : l.IsPart text)
    (hfree : Free placeholderStart text) : l.Clear :=
  ⟨⟨hfree.of_infix h.part, not_mem_of_unbroken h.unbroken⟩, h.ending⟩

/-- What a character between single quotes is written as. -/
def doubled (c : Char) : List Char := if c = '\'' then ['\'', '\''] else [c]

theorem free_doubled {text : List Char} (h : Free placeholderStart text) :
    Free placeholderStart (text.flatMap doubled) := by
  refine h.flatMap (c := '_') (by decide) fun c => ?_
  unfold doubled
  split
  · exact .inr ⟨'\'', ['\''], rfl, by decide, by decide⟩
  · exact .inl rfl

/-- The quoted text is spread over the lines. -/
theorem isPart_singleQuoted {acc text : List Char} (hacc : acc.any isBreak = false) :
    ∀ l ∈ singleQuoted.go acc text,
      l.IsPart (acc.reverse ++ (text.flatMap doubled ++ ['\''])) := by
  induction text generalizing acc with
  | nil =>
    intro l hl
    obtain rfl := List.mem_singleton.1 hl
    exact ⟨by simp [Line.of], by simpa [Line.of, isBreak] using hacc, rfl⟩
  | cons c text ih =>
    rw [singleQuoted.go, List.flatMap_cons]
    split
    next hbreak =>
      intro l hl
      rcases List.mem_cons.1 hl with rfl | hl
      · exact ⟨(List.prefix_append _ _).isInfix, by simpa using hacc, hbreak⟩
      · exact (@ih [] rfl l hl).mono (List.IsSuffix.isInfix ⟨acc.reverse ++ doubled c, by simp⟩)
    next hbreak =>
      split
      next hquote =>
        subst hquote
        intro l hl
        have hl := ih (by simpa [isBreak] using hacc) l hl
        simpa [doubled] using hl
      next hquote =>
        intro l hl
        have hl := ih (by simpa [hbreak] using hacc) l hl
        simpa [doubled, hquote] using hl

theorem isPart_splitLines {acc text : List Char} (hacc : acc.any isBreak = false) :
    ∀ l ∈ splitLines.go acc text, l.IsPart (acc.reverse ++ text) := by
  induction text generalizing acc with
  | nil =>
    rw [splitLines.go]
    split
    · nofun
    · intro l hl
      obtain rfl := List.mem_singleton.1 hl
      exact ⟨by simp [Line.of], by simpa [Line.of] using hacc, rfl⟩
  | cons c text ih =>
    rw [splitLines.go]
    split
    next hbreak =>
      intro l hl
      rcases List.mem_cons.1 hl with rfl | hl
      · exact ⟨(List.prefix_append _ _).isInfix, by simpa using hacc, hbreak⟩
      · exact (@ih [] rfl l hl).mono (List.IsSuffix.isInfix ⟨acc.reverse ++ [c], by simp⟩)
    next hbreak =>
      intro l hl
      have hl := ih (by simpa [hbreak] using hacc) l hl
      simpa using hl

theorem hexNumeral_subset (width n : Nat) : hexNumeral width n ⊆ "0123456789ABCDEF".toList := by
  have hdigits : ∀ d < 16, (Nat.digitChar d).toUpper ∈ "0123456789ABCDEF".toList := by decide
  induction width generalizing n with
  | zero => exact List.nil_subset _
  | succ width ih =>
    rw [hexNumeral, List.append_subset, List.cons_subset]
    exact ⟨ih (n / 16), hdigits _ (Nat.mod_lt n (by decide)), List.nil_subset _⟩

/-- An escape has no underscore: the one character that is escaped by it is written as it is. -/
theorem escape_cases (c : Char) : escape c = [c] ∧ c ≠ '\n' ∨
    ∃ letters, escape c = '\\' :: letters ∧ '_' ∉ letters ∧ '\n' ∉ letters := by
  have hnumeral : ∀ letter, letter ≠ '_' → letter ≠ '\n' → ∀ width,
      '_' ∉ letter :: hexNumeral width c.toNat ∧ '\n' ∉ letter :: hexNumeral width c.toNat := by
    intro letter hscore hline width
    have hhex := hexNumeral_subset width c.toNat
    rw [List.mem_cons, not_or, List.mem_cons, not_or]
    exact ⟨⟨hscore.symm, fun hmem => absurd (hhex hmem) (by decide)⟩,
      ⟨hline.symm, fun hmem => absurd (hhex hmem) (by decide)⟩⟩
  unfold escape
  split
  next h =>
    refine .inl ⟨rfl, ?_⟩
    rintro rfl
    exact absurd h (by decide)
  next h =>
    refine .inr ?_
    split
    next letter hletter =>
      refine ⟨[letter], rfl, ?_⟩
      unfold escapeLetter? at hletter
      split at hletter <;> first
        | cases hletter; decide
        | exact absurd (by decide) h
        | cases hletter
    next =>
      split
      · exact ⟨_, rfl, hnumeral 'x' (by decide) (by decide) 2⟩
      · split
        · exact ⟨_, rfl, hnumeral 'u' (by decide) (by decide) 4⟩
        · exact ⟨_, rfl, hnumeral 'U' (by decide) (by decide) 8⟩

theorem clear_nil : Clear [] := .of_not_mem nofun nofun

theorem clear_doubleQuoted {text : List Char} (h : Free placeholderStart text) :
    Clear (doubleQuoted text) := by
  have hbody : Clear (text.flatMap escape) := by
    refine ⟨h.flatMap (c := '_') (by decide) fun c => ?_, fun hmem => ?_⟩
    · rcases escape_cases c with ⟨hc, -⟩ | ⟨letters, hc, hscore, -⟩
      · exact .inl hc
      · exact .inr ⟨'\\', letters, hc, by decide, hscore⟩
    · obtain ⟨c, -, hc⟩ := List.mem_flatMap.1 hmem
      rcases escape_cases c with ⟨heq, hne⟩ | ⟨letters, heq, -, hline⟩
      · rw [heq] at hc
        exact hne (List.mem_singleton.1 hc).symm
      · rw [heq] at hc
        rcases List.mem_cons.1 hc with hc | hc
        · exact absurd hc (by decide)
        · exact hline hc
  have hclosed : Clear (text.flatMap escape ++ ['"']) :=
    hbody.append_cons clear_nil (by decide) (by decide)
  exact clear_nil.append_cons hclosed (by decide) (by decide)

theorem clear_literalHead (text : List Char) : Clear (literalHead text) := by
  have hchars : ∀ c ∈ literalHead text, c ∈ ['|', '2', '-', '+'] := by
    unfold literalHead
    intro c hc
    grind
  exact .of_not_mem (fun h => absurd (hchars _ h) (by decide))
    fun h => absurd (hchars _ h) (by decide)

/-- A plain text is one line. -/
theorem not_mem_of_plain {inLine : Bool} {s : String} (h : styleOf inLine s = .plain) :
    '\n' ∉ s.toList := by
  intro hmem
  unfold styleOf at h
  rw [List.contains_iff_mem.2 hmem] at h
  grind

theorem clear_styled (inLine : Bool) {s : String} (h : Free placeholderStart s.toList) :
    ∀ l ∈ styled (styleOf inLine s) s, l.Clear := by
  intro l hl
  cases hstyle : styleOf inLine s with
  | plain =>
    rw [hstyle] at hl
    obtain rfl := List.mem_singleton.1 hl
    exact .of ⟨h, not_mem_of_plain hstyle⟩
  | single =>
    rw [hstyle] at hl
    refine (@isPart_singleQuoted ['\''] _ (by decide) l hl).clear ?_
    have hclosed := (free_doubled h).append_cons (by decide) clear_nil.free (c := '\'')
    exact clear_nil.free.append_cons (by decide) hclosed
  | double =>
    rw [hstyle] at hl
    obtain rfl := List.mem_singleton.1 hl
    exact .of (clear_doubleQuoted h)
  | literal =>
    rw [hstyle] at hl
    rcases List.mem_cons.1 hl with rfl | hl
    · exact .of (clear_literalHead _)
    · exact (@isPart_splitLines [] _ rfl l hl).clear h

theorem singleQuoted_of_unbroken {acc text : List Char} (h : text.any isBreak = false) :
    ∃ l, singleQuoted.go acc text = [l] := by
  induction text generalizing acc with
  | nil => exact ⟨_, rfl⟩
  | cons c text ih =>
    rw [List.any_cons, Bool.or_eq_false_iff] at h
    rw [singleQuoted.go, h.1, if_neg (by decide)]
    split
    · exact ih h.2
    · exact ih h.2

/-- A key stays on one line. -/
theorem exists_styled_key (key : String) : ∃ l, styled (styleOf true key) key = [l] := by
  cases hstyle : styleOf true key with
  | plain | double => exact ⟨_, rfl⟩
  | single =>
    refine singleQuoted_of_unbroken ?_
    cases hbreak : key.toList.any isBreak with
    | false => rfl
    | true =>
      have hbreak : (Features.ofText key.toList).lineBreak = true := hbreak
      unfold styleOf at hstyle
      grind
  | literal =>
    unfold styleOf at hstyle
    grind

/-! ### Placeholders -/

/-- No text that begins with an underscore means anything but itself. -/
theorem resolve_of_underscore (rest : List Char) :
    Scalar.resolve (String.ofList ('_' :: rest)) = .str (String.ofList ('_' :: rest)) := by
  have hpadded : Scalar.isPadded ('_' :: rest) = false := rfl
  have hspelled : Scalar.natural? 10 ('_' :: rest) = none := rfl
  have hpositive : Scalar.positive? ('_' :: rest) = none := by
    simp [Scalar.positive?, Scalar.withoutPlus, hpadded, hspelled]
  have hnegative : Scalar.negative? ('_' :: rest) = none := rfl
  have hdecimal : Scalar.decimal? ('_' :: rest) = none := rfl
  simp [Scalar.resolve, Scalar.isNull, Scalar.bool?, Scalar.integer?, Scalar.float?,
    Scalar.infinities, Scalar.withoutPlus, hpadded, hpositive, hnegative, hdecimal]

theorem adjacent_eq_false {first second : Char → Bool} {text : List Char}
    (h : text.any first = false) : Features.adjacent first second text = false := by
  induction text with
  | nil => rfl
  | cons c rest ih =>
    rw [List.any_cons, Bool.or_eq_false_iff] at h
    cases rest with
    | nil => rfl
    | cons d rest => rw [Features.adjacent, ih h.2, h.1, Bool.false_and, Bool.or_false]

theorem indicatorAfter_eq_false {before : Char} {text : List Char}
    (h : ∀ c ∈ text, c ≠ ':' ∧ c ≠ '#') : Features.indicatorAfter before text = false := by
  induction text generalizing before with
  | nil => rfl
  | cons c rest ih =>
    obtain ⟨hcolon, hsign⟩ := h c List.mem_cons_self
    simp [Features.indicatorAfter, hcolon, hsign, ih fun d hd => h d (List.mem_cons_of_mem c hd)]

theorem isPrintable_of_isWordChar {c : Char} (h : isWordChar c = true) : isPrintable c = true := by
  have hprintable : 0x20 ≤ c.toNat → c.toNat ≤ 0x7E → isPrintable c = true := fun hlow hhigh => by
    simp [isPrintable, hlow, hhigh]
  simp only [isWordChar, Bool.or_eq_true, Bool.and_eq_true, decide_eq_true_eq] at h
  rcases h with (((⟨hlow, hhigh⟩ | ⟨hlow, hhigh⟩) | ⟨hlow, hhigh⟩) | rfl) | rfl
  · exact hprintable (Nat.le_trans (by decide) hlow) (Nat.le_trans hhigh (by decide))
  · exact hprintable (Nat.le_trans (by decide) hlow) (Nat.le_trans hhigh (by decide))
  · exact hprintable (Nat.le_trans (by decide) hlow) (Nat.le_trans hhigh (by decide))
  · decide
  · decide

theorem isBreak_of_isWordChar {c : Char} (h : isWordChar c = true) : isBreak c = false := by
  refine Bool.eq_false_iff.2 fun hbreak => ?_
  simp only [isBreak, Bool.or_eq_true, decide_eq_true_eq] at hbreak
  rcases hbreak with (((rfl | rfl) | rfl) | rfl) | rfl <;> exact absurd h (by decide)

/-- A word that begins with an underscore can be written plain. -/
theorem allowsPlain_of_word {rest : List Char} (h : ∀ c ∈ '_' :: rest, isWordChar c = true) :
    (Features.ofText ('_' :: rest)).allowsPlain = true := by
  have hne : ∀ d, isWordChar d = false → ∀ c ∈ '_' :: rest, c ≠ d := by
    rintro d hd c hc rfl
    exact absurd (h c hc) (by simp [hd])
  have hbreak : ('_' :: rest).any isBreak = false :=
    List.any_eq_false.2 fun c hc => by simp [isBreak_of_isWordChar (h c hc)]
  have hspecial : ('_' :: rest).any (!isPrintable ·) = false :=
    List.any_eq_false.2 fun c hc => by simp [isPrintable_of_isWordChar (h c hc)]
  have hspace : ('_' :: rest).any (fun c => decide (c = ' ')) = false :=
    List.any_eq_false.2 fun c hc => by simp [hne ' ' (by decide) c hc]
  have hindicator : Features.indicatorAfter '_' rest = false :=
    indicatorAfter_eq_false fun c hc =>
      ⟨hne ':' (by decide) c (List.mem_cons_of_mem _ hc), hne '#' (by decide) c (List.mem_cons_of_mem _ hc)⟩
  obtain ⟨last, hlast⟩ : ∃ last, ('_' :: rest).getLast? = some last :=
    ⟨_, List.getLast?_eq_some_getLast (List.cons_ne_nil _ _)⟩
  have hword := h last (List.mem_of_getLast? hlast)
  have hlastSpace : last ≠ ' ' := by
    rintro rfl
    exact absurd hword (by decide)
  have hlastBreak : isBreak last = false := isBreak_of_isWordChar hword
  have hstart : Features.isDocumentMark ('_' :: rest) = false ∧
      Features.indicatorAtStart ('_' :: rest) = false ∧ isBreak '_' = false :=
    ⟨rfl, by simp [Features.indicatorAtStart, Features.leadingIndicators], by decide⟩
  simp [Features.allowsPlain, Features.ofText, hbreak, hspecial, hindicator, hlast, hlastSpace,
    hlastBreak, hstart, adjacent_eq_false hbreak, adjacent_eq_false hspace]

/-- A word that begins with an underscore is written as it is. -/
theorem scalarLines_word {rest : List Char} (h : ∀ c ∈ '_' :: rest, isWordChar c = true) :
    scalarLines (.str (String.ofList ('_' :: rest))) = [.of ('_' :: rest)] := by
  have hline : '\n' ∉ '_' :: rest := fun hmem => absurd (h _ hmem) (by decide)
  have hquotes : needsQuotes (String.ofList ('_' :: rest)) = false := by
    rw [needsQuotes, resolve_of_underscore, String.toList_ofList]
    rfl
  have hstyle : styleOf false (String.ofList ('_' :: rest)) = .plain := by
    have hplain := allowsPlain_of_word h
    simp only [styleOf, String.toList_ofList, hquotes, List.contains_iff_mem, hline, hplain,
      Bool.not_false, Bool.and_self, if_false, if_true]
  rw [scalarLines, hstyle, styled, String.toList_ofList]

end Workflow.Yaml
