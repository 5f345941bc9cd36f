import Mathlib.Algebra.Ring.Nat
import Workflow.NodeId

/-!
# Identifiers that are read where they were written

The text of an identifier is its digits in groups. The reader takes nothing away from this text
(`bare_hexDigit`), puts the groups together again (`ungroup?_hyphenate`) and so finds the number that
was written (`number?_digits`, `ofText?_text`).
-/

namespace Workflow.NodeId

open Json.Quoted

/-! ### Digits -/

theorem hexValue?_hexDigit : ∀ d < 16, hexValue? (hexDigit d) = some d := by decide

theorem number?_append_digit {ds : List Char} {n : Nat} (h : number? ds = some n) {d : Nat}
    (hd : d < 16) : number? (ds ++ [hexDigit d]) = some (16 * n + d) := by
  unfold number? at h ⊢
  rw [List.foldlM_append, h]
  simp only [Option.bind_eq_bind, Option.bind_some, List.foldlM_cons, List.foldlM_nil,
    hexValue?_hexDigit d hd, Option.map_some]
  rfl

theorem number?_digits (count n : Nat) : number? (digits count n) = some (n % 16 ^ count) := by
  induction count generalizing n with
  | zero => rw [Nat.pow_zero, Nat.mod_one]; rfl
  | succ count ih =>
    rw [digits, number?_append_digit (ih (n / 16)) (Nat.mod_lt n (by decide)), Nat.pow_succ',
      Nat.mod_mul, Nat.add_comm]

theorem length_digits (count n : Nat) : (digits count n).length = count := by
  induction count generalizing n with
  | zero => rfl
  | succ count ih => rw [digits, List.length_append, ih, List.length_singleton]

theorem eq_hexDigit_of_mem_digits {count n : Nat} {c : Char} (h : c ∈ digits count n) :
    ∃ d < 16, c = hexDigit d := by
  induction count generalizing n with
  | zero => cases h
  | succ count ih =>
    rcases List.mem_append.1 h with h | h
    · exact ih h
    · exact ⟨n % 16, Nat.mod_lt n (by decide), List.mem_singleton.1 h⟩

/-! ### Groups -/

theorem ungroup?_hyphenate : {lengths : List Nat} → {ds : List Char} → lengths ≠ [] →
    ds.length = lengths.sum → ungroup? lengths (hyphenate lengths ds) = some ds
  | [], _, h, _ => absurd rfl h
  | [n], ds, _, h => by
    have hn : ds.length = n := h
    rw [hyphenate, List.take_of_length_le (Nat.le_of_eq hn), ungroup?, if_pos hn]
  | n :: m :: rest, ds, _, h => by
    rw [List.sum_cons] at h
    have hn : (ds.take n).length = n := List.length_take_of_le (by omega)
    have hrest : ungroup? (m :: rest) (hyphenate (m :: rest) (ds.drop n)) = some (ds.drop n) :=
      ungroup?_hyphenate nofun (by rw [List.length_drop]; omega)
    rw [hyphenate, ungroup?, List.drop_left' hn, List.take_left' hn]
    · simp only [hrest, Option.map_some, List.take_append_drop]
    all_goals nofun

/-- A text that begins with a digit has no braces around it and no scheme in front of it. -/
theorem bare_hexDigit {d : Nat} (h : d < 16) (rest : List Char) :
    bare (hexDigit d :: rest) = hexDigit d :: rest := by
  have hscheme : ∀ d < 16, ('u' == (hexDigit d).toLower) = false := by decide
  have hbrace : ∀ d < 16, hexDigit d ≠ '\x7b' := by decide
  have hu : "urn:uuid:".toList = 'u' :: "rn:uuid:".toList := by decide
  have hplain : List.isPrefixOf "urn:uuid:".toList ((hexDigit d :: rest).map Char.toLower)
      = false := by
    rw [hu, List.map_cons, List.isPrefixOf_cons_cons, hscheme d h, Bool.false_and]
  unfold bare
  simp only [hplain, Bool.false_eq_true, if_false]
  split
  next heq => exact absurd (List.cons.inj heq).1 (hbrace d h)
  next => rfl

/-! ### Texts -/

/-- An identifier is read back from its text. -/
theorem ofText?_text (id : NodeId) : ofText? id.text = some id := by
  have hlength : id.allDigits.length = 32 := length_digits 32 _
  have hlt : id.bits.toNat < 16 ^ 32 := Nat.lt_of_lt_of_eq id.bits.isLt (by decide)
  have hnumber : number? id.allDigits = some id.bits.toNat := by
    rw [allDigits, number?_digits, Nat.mod_eq_of_lt hlt]
  have hbare : bare (hyphenate groups id.allDigits) = hyphenate groups id.allDigits := by
    obtain ⟨c, ds, hds⟩ : ∃ c ds, id.allDigits = c :: ds :=
      List.exists_cons_of_length_pos (by omega)
    obtain ⟨d, hd, rfl⟩ := eq_hexDigit_of_mem_digits (hds ▸ List.mem_cons_self : c ∈ id.allDigits)
    rw [hds]
    exact bare_hexDigit hd _
  have hlong : (hyphenate groups id.allDigits).length ≠ 32 := by
    simp [groups, hyphenate, hlength]
  rw [ofText?, text, String.toList_ofList, if_neg hlong, hbare,
    ungroup?_hyphenate (by decide) hlength]
  simp only [Option.bind_eq_bind, Option.bind_some, hnumber]
  show some (ofNat id.bits.toNat) = some id
  rw [ofNat, BitVec.ofNat_toNat, BitVec.setWidth_eq]

end Workflow.NodeId
