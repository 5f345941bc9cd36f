import Workflow.Proofs.Json.Spelling

/-!
# Where a quoted string ends

A string that is scanned is closed by a quote behind characters and escapes (`Quoted.Closes`), and no
escape reaches over a space. So a text that is one quoted string ends in a quote
(`Quoted.exists_of_unquote?`), and it is not one quoted string when something stands behind a quote
that follows a space (`Quoted.unquote?_of_space`).
-/

namespace Workflow.Json.Quoted

/-- The text behind the closing quote of a scanned string, if there is one. -/
def Scan.left : Scan → Option (List Char)
  | closed _ rest | unpaired rest => some rest
  | broken => none

@[simp] theorem Scan.left_push (c : Char) (s : Scan) : (s.push c).left = s.left := by
  cases s <;> rfl

@[simp] theorem Scan.left_unpair (s : Scan) : s.unpair.left = s.left := by
  cases s <;> rfl

@[simp] theorem Scan.left_settle (pending : Option Nat) (s : Scan) :
    (s.settle pending).left = s.left := by
  unfold settle
  split
  · exact s.left_unpair
  · rfl

/-- What is scanned at a time. -/
inductive IsPiece : List Char → Prop
  | char {c : Char} (h : c ≠ '"') : IsPiece [c]
  | escape {letters : List Char} (h : ' ' ∉ letters) : IsPiece ('\\' :: letters)

/-- A string that ends in front of `rest`, with its closing quote. -/
inductive Closes (rest : List Char) : List Char → Prop
  | quote : Closes rest ('"' :: rest)
  | piece {piece text : List Char} (hpiece : IsPiece piece) (h : Closes rest text) :
      Closes rest (piece ++ text)

theorem IsPiece.word {a b c d : Char} {n : Nat} (h : hexWord? a b c d = some n) :
    IsPiece ['\\', 'u', a, b, c, d] := by
  have hnone : hexValue? ' ' = none := by decide
  simp only [hexWord?, Option.bind_eq_bind, Option.bind_eq_some_iff] at h
  obtain ⟨_, ha, _, hb, _, hc, _, hd, -⟩ := h
  refine .escape ?_
  simp only [List.mem_cons, List.not_mem_nil, or_false, not_or]
  grind

theorem IsPiece.letter {e c : Char} (h : simpleEscape? e = some c) : IsPiece ['\\', e] := by
  refine .escape fun hmem => ?_
  obtain rfl := List.mem_singleton.1 hmem
  simp [simpleEscape?] at h

/-- A space is scanned alone. -/
theorem IsPiece.eq_of_space {before behind : List Char} (h : IsPiece (before ++ ' ' :: behind)) :
    before = [] ∧ behind = [] := by
  generalize hpiece : before ++ ' ' :: behind = piece at h
  cases h with
  | char =>
    obtain ⟨hbefore, hbehind⟩ | ⟨-, hbehind⟩ := List.append_eq_singleton_iff.1 hpiece
    · exact ⟨hbefore, (List.cons.inj hbehind).2⟩
    · cases hbehind
  | @escape letters h =>
    cases before with
    | nil => cases hpiece
    | cons c before =>
      obtain ⟨-, rfl⟩ := List.cons.inj hpiece
      exact absurd (List.mem_append_right before List.mem_cons_self) h

theorem closes_of_left {pending : Option Nat} {text rest : List Char}
    (h : (scanFrom pending text).left = some rest) : Closes rest text := by
  fun_induction scanFrom pending text with
  | case1 => cases h
  | case2 pending rest' =>
    rw [Scan.left_settle] at h
    cases h
    exact .quote
  | case3 => cases h
  | case4 pending a b c d text n hn hhigh ih =>
    rw [Scan.left_settle] at h
    exact .piece (.word hn) (ih h)
  | case5 a b c d text n hn hhigh hlow high ih =>
    rw [Scan.left_push] at h
    exact .piece (.word hn) (ih h)
  | case6 a b c d text n hn hhigh hlow ih =>
    rw [Scan.left_unpair] at h
    exact .piece (.word hn) (ih h)
  | case7 pending a b c d text n hn hhigh hlow ih =>
    rw [Scan.left_settle, Scan.left_push] at h
    exact .piece (.word hn) (ih h)
  | case8 pending e text hword c hc ih =>
    rw [Scan.left_settle, Scan.left_push] at h
    exact .piece (.letter hc) (ih h)
  | case9 => cases h
  | case10 => cases h
  | case11 pending c text hquote hword hescape hplain ih =>
    rw [Scan.left_settle, Scan.left_push] at h
    exact .piece (.char hquote) (ih h)

namespace Closes

variable {text rest before behind : List Char}

theorem exists_quote (h : Closes rest text) : ∃ front, text = front ++ '"' :: rest := by
  induction h with
  | quote => exact ⟨[], rfl⟩
  | @piece piece text _ _ ih =>
    obtain ⟨front, rfl⟩ := ih
    exact ⟨piece ++ front, (List.append_assoc ..).symm⟩

theorem of_quote (h : Closes rest ('"' :: behind)) : rest = behind := by
  generalize htext : '"' :: behind = text at h
  cases h with
  | quote => exact (List.cons.inj htext).2.symm
  | piece hpiece =>
    cases hpiece with
    | char hne => exact absurd (List.cons.inj htext).1.symm hne
    | escape => cases htext

/-- A string is closed at the first quote behind a space at the latest. -/
theorem suffix_of_space (h : Closes rest (before ++ ' ' :: '"' :: behind)) : behind <:+ rest := by
  generalize htext : before ++ ' ' :: '"' :: behind = text at h
  induction h generalizing before with
  | quote =>
    cases before with
    | nil => cases htext
    | cons c before =>
      obtain ⟨-, rfl⟩ := List.cons.inj htext
      exact ⟨before ++ [' ', '"'], by simp⟩
  | @piece piece text hpiece h ih =>
    rcases List.append_eq_append_iff.1 htext with ⟨more, rfl, heq⟩ | ⟨more, rfl, rfl⟩
    · -- The piece ends behind the text in front of the space.
      cases more with
      | nil => exact @ih [] heq
      | cons c more =>
        obtain ⟨rfl, hbehind⟩ := List.cons.inj heq
        obtain ⟨rfl, rfl⟩ := hpiece.eq_of_space
        obtain rfl : text = '"' :: behind := hbehind.symm
        exact h.of_quote ▸ List.suffix_refl rest
    · exact ih rfl

end Closes

/-! ### Texts that are one quoted string -/

theorem unquote?_quote (text : List Char) : unquote? (quote text) = some text := by
  rw [quote, List.cons_append, unquote?, scan_flatMap_escape]

theorem closes_of_unquote? {literal text : List Char} (h : unquote? literal = some text) :
    ∃ rest, literal = '"' :: rest ∧ Closes [] rest := by
  unfold unquote? at h
  split at h
  next rest =>
    split at h
    next hscan =>
      have hleft : (scanFrom none rest).left = some [] := by rw [← scan, hscan, Scan.left]
      exact ⟨rest, rfl, closes_of_left hleft⟩
    next => cases h
  next => cases h

/-- One quoted string ends in a quote. -/
theorem exists_of_unquote? {literal text : List Char} (h : unquote? literal = some text) :
    ∃ front, literal = front ++ ['"'] := by
  obtain ⟨rest, rfl, hclosed⟩ := closes_of_unquote? h
  obtain ⟨front, rfl⟩ := hclosed.exists_quote
  exact ⟨'"' :: front, rfl⟩

/-- Nothing stands behind a quote that follows a space in one quoted string. -/
theorem unquote?_of_space {before behind : List Char} (h : behind ≠ []) :
    unquote? ('"' :: before ++ ' ' :: '"' :: behind) = none := by
  rw [Option.eq_none_iff_forall_ne_some]
  intro text htext
  obtain ⟨rest, heq, hclosed⟩ := closes_of_unquote? htext
  obtain rfl := (List.cons.inj heq).2
  exact h (List.suffix_nil.1 hclosed.suffix_of_space)

end Workflow.Json.Quoted
