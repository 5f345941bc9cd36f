import Workflow.Script

/-!
# Where a mark stands in a text

`Script.splitAt?` splits a text at the first place of a mark (`splitAt?_eq_some_iff`). Two ways to
know that a place is the first one: the mark begins with a character that does not stand in front of
it (`splitAt?_of_not_mem`), or the mark does not stand in the text in front, which ends in a character
that the mark does not have (`splitAt?_of_free`). The lines of a text are its parts between line feeds
(`lines_eq_splitOn`).
-/

namespace Workflow.Script

variable {mark text before behind : List Char}

/-- The text in front is the shortest one behind which the mark stands. -/
theorem splitAt?_eq_some_iff :
    splitAt? mark text = some (before, behind) ↔
      text = before ++ behind ∧ mark <+: behind ∧
        ∀ tail, tail <:+ before → tail ≠ [] → ¬mark <+: tail ++ behind := by
  induction text generalizing before with
  | nil =>
    rw [splitAt?]
    cases mark with
    | nil =>
      simp only [List.isEmpty_nil, if_true, Option.some.injEq, Prod.mk.injEq]
      constructor
      · rintro ⟨rfl, rfl⟩
        exact ⟨rfl, List.prefix_refl _, fun tail htail hne => absurd (List.suffix_nil.1 htail) hne⟩
      · rintro ⟨h, -⟩
        obtain ⟨rfl, rfl⟩ := List.nil_eq_append_iff.1 h
        exact ⟨rfl, rfl⟩
    | cons c mark =>
      refine iff_of_false nofun ?_
      rintro ⟨h, hprefix, -⟩
      obtain ⟨rfl, rfl⟩ := List.nil_eq_append_iff.1 h
      cases List.prefix_nil.1 hprefix
  | cons c text ih =>
    rw [splitAt?]
    split
    next hprefix =>
      rw [List.isPrefixOf_iff_prefix] at hprefix
      simp only [Option.some.injEq, Prod.mk.injEq]
      constructor
      · rintro ⟨rfl, rfl⟩
        exact ⟨rfl, hprefix, fun tail htail hne => absurd (List.suffix_nil.1 htail) hne⟩
      · rintro ⟨h, -, hfirst⟩
        cases before with
        | nil => exact ⟨rfl, h⟩
        | cons d before =>
          exact absurd (h ▸ hprefix) (hfirst _ (List.suffix_refl _) (List.cons_ne_nil d before))
    next hprefix =>
      rw [List.isPrefixOf_iff_prefix] at hprefix
      rw [Option.map_eq_some_iff]
      constructor
      · rintro ⟨⟨before', behind'⟩, hsplit, heq⟩
        cases heq
        obtain ⟨rfl, hmark, hfirst⟩ := ih.1 hsplit
        refine ⟨rfl, hmark, fun tail htail hne => ?_⟩
        rcases List.suffix_cons_iff.1 htail with rfl | htail
        · exact hprefix
        · exact hfirst tail htail hne
      · rintro ⟨h, hmark, hfirst⟩
        cases before with
        | nil => exact absurd (h ▸ hmark) hprefix
        | cons d before =>
          obtain ⟨rfl, rfl⟩ := List.cons.inj h
          refine ⟨(before, behind), ih.2 ⟨rfl, hmark, fun tail htail => ?_⟩, rfl⟩
          exact hfirst tail (List.suffix_cons_iff.2 (.inr htail))

theorem splitAt?_of_not_mem {c : Char} (h : c ∉ before) (mark behind : List Char) :
    splitAt? (c :: mark) (before ++ (c :: mark ++ behind)) = some (before, c :: mark ++ behind) := by
  refine splitAt?_eq_some_iff.2 ⟨rfl, List.prefix_append _ _, fun tail htail hne hprefix => ?_⟩
  cases tail with
  | nil => exact hne rfl
  | cons d tail =>
    obtain ⟨rfl, -⟩ := List.cons_prefix_cons.1 hprefix
    exact h (htail.subset List.mem_cons_self)

/-! ### Texts without the mark -/

/-- The text does not hold the mark. -/
def Free (mark text : List Char) : Prop := ¬mark <:+: text

instance (mark text : List Char) : Decidable (Free mark text) :=
  inferInstanceAs (Decidable (¬mark <:+: text))

/-- A mark does not reach over a character that it does not have. -/
theorem prefix_of_prefix_append_cons {c : Char} (hc : c ∉ mark)
    (h : mark <+: before ++ c :: behind) : mark <+: before := by
  induction before generalizing mark with
  | nil =>
    cases mark with
    | nil => exact List.nil_prefix
    | cons d mark =>
      obtain ⟨rfl, -⟩ := List.cons_prefix_cons.1 h
      exact absurd List.mem_cons_self hc
  | cons d before ih =>
    cases mark with
    | nil => exact List.nil_prefix
    | cons e mark =>
      obtain ⟨rfl, hrest⟩ := List.cons_prefix_cons.1 h
      exact List.cons_prefix_cons.2 ⟨rfl, ih (mt (List.mem_cons_of_mem e) hc) hrest⟩

namespace Free

theorem of_infix {part : List Char} (h : Free mark text) (hpart : part <:+: text) :
    Free mark part := fun hmark => h (hmark.trans hpart)

theorem of_not_mem {c : Char} (hc : c ∈ mark) (h : c ∉ text) : Free mark text :=
  fun hmark => h (hmark.subset hc)

theorem append_cons {c : Char} (hc : c ∉ mark) (hbefore : Free mark before)
    (hbehind : Free mark behind) : Free mark (before ++ c :: behind) := by
  induction before with
  | nil =>
    intro hmark
    rcases List.infix_cons_iff.1 hmark with hmark | hmark
    · have hempty : mark <+: [] := prefix_of_prefix_append_cons hc hmark
      exact hbefore hempty.isInfix
    · exact hbehind hmark
  | cons d before ih =>
    intro hmark
    rcases List.infix_cons_iff.1 hmark with hmark | hmark
    · have hfront : mark <+: d :: before := prefix_of_prefix_append_cons hc hmark
      exact hbefore hfront.isInfix
    · exact ih (hbefore.of_infix (List.suffix_cons d before).isInfix) hmark

/-- In front of a text the mark can begin only with its first character. -/
theorem append_of_not_mem {c : Char} (hmark : mark.head? = some c) (hc : c ∉ before)
    (h : Free mark behind) : Free mark (before ++ behind) := by
  obtain ⟨more, rfl⟩ := List.head?_eq_some_iff.1 hmark
  induction before with
  | nil => exact h
  | cons d before ih =>
    rw [List.mem_cons, not_or] at hc
    intro hinfix
    rcases List.infix_cons_iff.1 hinfix with hprefix | hinfix
    · exact hc.1 (List.cons_prefix_cons.1 hprefix).1
    · exact ih hc.2 hinfix

/-- A character that is replaced is replaced by a text that keeps the mark from standing across. -/
theorem flatMap {c : Char} {f : Char → List Char} (hmark : mark.head? = some c)
    (h : Free mark text)
    (hf : ∀ d, f d = [d] ∨ ∃ e more, f d = e :: more ∧ e ∉ mark ∧ c ∉ more) :
    Free mark (text.flatMap f) := by
  -- The characters in front of the text are those that were kept since the last replacement.
  suffices hkept : ∀ kept, Free mark (kept ++ text) → Free mark (kept ++ text.flatMap f) from
    hkept [] h
  clear h
  induction text with
  | nil => exact fun _ hkept => hkept
  | cons d text ih =>
    intro kept hkept
    rw [List.flatMap_cons]
    rcases hf d with hd | ⟨e, more, hd, he, hmore⟩
    · rw [hd, ← List.append_assoc]
      rw [List.append_cons] at hkept
      exact ih _ hkept
    · have htext : Free mark text :=
        hkept.of_infix ((List.suffix_cons d text).trans (List.suffix_append _ _)).isInfix
      rw [hd, List.cons_append]
      exact (hkept.of_infix (List.prefix_append _ _).isInfix).append_cons he
        (append_of_not_mem hmark hmore (ih [] htext))

end Free

theorem splitAt?_of_free {c : Char} (hc : c ∉ mark) (h : Free mark (before ++ [c]))
    (behind : List Char) :
    splitAt? mark (before ++ [c] ++ (mark ++ behind)) = some (before ++ [c], mark ++ behind) := by
  refine splitAt?_eq_some_iff.2 ⟨rfl, List.prefix_append _ _, fun tail htail hne hprefix => ?_⟩
  obtain rfl | ⟨front, rfl, -⟩ := List.suffix_concat_iff.1 htail
  · exact hne rfl
  · rw [List.append_assoc] at hprefix
    exact h ((prefix_of_prefix_append_cons hc hprefix).isInfix.trans
      ((List.prefix_append front [c]).isInfix.trans htail.isInfix))

theorem splitAt?_eq_none_of_free (h : Free mark text) :
    splitAt? mark text = none := by
  rw [Option.eq_none_iff_forall_ne_some]
  rintro ⟨before, behind⟩ hsplit
  obtain ⟨rfl, hmark, -⟩ := splitAt?_eq_some_iff.1 hsplit
  exact h (hmark.isInfix.trans (List.suffix_append before behind).isInfix)

/-! ### Lines -/

theorem lines_eq_splitOn (text : List Char) : lines text = text.splitOn '\n' := by
  induction text with
  | nil => rfl
  | cons c rest ih =>
    rw [lines, List.splitOn_cons_eq_if_modifyHead, ih]
    by_cases hc : c = '\n'
    · simp [hc]
    · have hne : rest.splitOn '\n' ≠ [] := List.splitOnP_ne_nil _ rest
      cases hlines : rest.splitOn '\n' with
      | nil => exact absurd hlines hne
      | cons l ls => simp [hc]

theorem not_mem_of_mem_lines {line : List Char} (h : line ∈ lines text) : '\n' ∉ line := by
  induction text generalizing line with
  | nil =>
    obtain rfl := List.mem_singleton.1 h
    exact List.not_mem_nil
  | cons c rest ih =>
    rw [lines] at h
    split at h
    next =>
      rcases List.mem_cons.1 h with rfl | h
      · exact List.not_mem_nil
      · exact ih h
    next hc =>
      split at h
      next l ls hlines =>
        rcases List.mem_cons.1 h with rfl | h
        · rw [List.mem_cons, not_or]
          exact ⟨Ne.symm hc, ih (hlines ▸ List.mem_cons_self)⟩
        · exact ih (hlines ▸ List.mem_cons_of_mem l h)
      next =>
        obtain rfl := List.mem_singleton.1 h
        exact mt List.mem_singleton.1 (Ne.symm hc)

theorem linesWithEnds_append {line : List Char} (h : '\n' ∉ line) (rest : List Char) :
    linesWithEnds (line ++ '\n' :: rest) = (line ++ ['\n']) :: linesWithEnds rest := by
  induction line with
  | nil => exact if_pos rfl
  | cons c line ih =>
    rw [List.mem_cons, not_or] at h
    rw [List.cons_append, linesWithEnds, if_neg (Ne.symm h.1), ih h.2]
    rfl

theorem linesWithEnds_of_not_mem {line : List Char} (h : '\n' ∉ line) (hne : line ≠ []) :
    linesWithEnds line = [line] := by
  induction line with
  | nil => exact absurd rfl hne
  | cons c line ih =>
    rw [List.mem_cons, not_or] at h
    rw [linesWithEnds, if_neg (Ne.symm h.1)]
    cases line with
    | nil => rfl
    | cons d line => rw [ih h.2 (List.cons_ne_nil d line)]

end Workflow.Script
