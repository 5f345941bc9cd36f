import Mathlib.Data.String.Basic
import Workflow.Proofs.Yaml.Scalars

/-!
# Written keys

A key that is followed by its value on the same line takes at most four times its bytes, quoted or not,
which is few enough to be read as a key (`exists_writtenKey`).
-/

namespace Workflow.Yaml

open Cursor (byteCount byteCount_cons byteCount_append)
open Lexer (Quoted quoted)
open Yaml.Text (Piece)
open Yaml.Text.Piece (writtenAll quoteOf)

/-! ### Bytes -/

theorem byteCount_toList (s : String) : byteCount s.toList = s.utf8ByteSize := by
  rw [← String.utf8Len_toList]
  induction s.toList with
  | nil => rfl
  | cons ch text ih => rw [byteCount_cons, String.utf8Len_cons, ih, Nat.add_comm]

theorem byteCount_flatMap_le {f : Char → List Char} {k : Nat}
    (h : ∀ ch, byteCount (f ch) ≤ k * ch.utf8Size) (text : List Char) :
    byteCount (text.flatMap f) ≤ k * byteCount text := by
  induction text with
  | nil => exact Nat.zero_le _
  | cons ch text ih =>
    rw [List.flatMap_cons, byteCount_append, byteCount_cons, Nat.mul_add]
    exact Nat.add_le_add (h ch) ih

/-- A text of characters of one byte. -/
theorem byteCount_eq_length {text : List Char} (h : ∀ ch ∈ text, ch.utf8Size = 1) :
    byteCount text = text.length := by
  induction text with
  | nil => rfl
  | cons ch text ih =>
    rw [byteCount_cons, h ch List.mem_cons_self, ih fun d hd => h d (List.mem_cons_of_mem ch hd),
      List.length_cons, Nat.add_comm]

theorem byteCount_doubled (ch : Char) : byteCount (doubled ch) ≤ 2 * ch.utf8Size := by
  unfold doubled
  split
  next h =>
    subst h
    decide
  next =>
    have hself : byteCount [ch] = ch.utf8Size := byteCount_cons ch []
    omega

theorem byteCount_hexNumeral (width n : Nat) : byteCount (hexNumeral width n) = width := by
  have hdigits : ∀ ch ∈ "0123456789ABCDEF".toList, ch.utf8Size = 1 :=
    List.all_iff_forall_prop.1 (by decide)
  rw [byteCount_eq_length fun ch hch => hdigits ch (hexNumeral_subset width n hch),
    Text.length_hexNumeral]

theorem utf8Size_ge (ch : Char) :
    (0x100 ≤ ch.toNat → 2 ≤ ch.utf8Size) ∧ (0x10000 ≤ ch.toNat → 4 ≤ ch.utf8Size) := by
  have hval : ch.val.toNat = ch.toNat := rfl
  unfold Char.utf8Size
  grind [UInt32.le_iff_toNat_le]

/-- The longer an escape is, the more bytes its character takes. -/
theorem byteCount_escape (ch : Char) : byteCount (escape ch) ≤ 4 * ch.utf8Size := by
  have hpos := ch.utf8Size_pos
  obtain ⟨htwo, hfour⟩ := utf8Size_ge ch
  have hnumeral : ∀ letter ∈ ['x', 'u', 'U'], ∀ width,
      byteCount ('\\' :: letter :: hexNumeral width ch.toNat) = 2 + width := by
    intro letter hletter width
    have hone : ∀ letter ∈ ['x', 'u', 'U'], letter.utf8Size = 1 :=
      List.all_iff_forall_prop.1 (by decide)
    rw [byteCount_cons, byteCount_cons, hone letter hletter, byteCount_hexNumeral, ← Nat.add_assoc]
    rfl
  unfold escape
  split
  next =>
    have hself : byteCount [ch] = ch.utf8Size := byteCount_cons ch []
    omega
  next =>
    split
    next letter hletter =>
      have hbytes : byteCount ['\\', letter] = 2 := by
        unfold escapeLetter? at hletter
        split at hletter <;> first | (obtain rfl := Option.some.inj hletter; rfl) | cases hletter
      omega
    next =>
      split
      next =>
        rw [hnumeral 'x' (by decide)]
        omega
      next hbyte =>
        split
        next =>
          rw [hnumeral 'u' (by decide)]
          omega
        next hword =>
          rw [hnumeral 'U' (by decide)]
          omega

/-! ### Keys -/

/-- A text that is read as a key and means its own text. -/
structure WrittenKey (text : List Char) (plain : Bool) (key : String) : Prop where
  starts : Starts text
  line : ∀ ch ∈ text, isBreak ch = false
  reads : Lexer.ReadsAsKey text plain key
  means : Node.ScalarMeans plain key (.str key)
  allowed : ∀ ch ∈ text, isAllowed ch = true

theorem WrittenKey.fits {text : List Char} {plain : Bool} {key : String}
    (h : WrittenKey text plain key) : Layout.KeyFits ⟨key, text, plain, true⟩ :=
  ⟨h.starts, h.line, h.reads⟩

theorem writtenKey_quoted {single : Bool} {row : List Piece} {key : String}
    (h : Quoted single row key.toList)
    (hline : ∀ ch ∈ writtenAll row, isAllowed ch = true ∧ isBreak ch = false)
    (hlength : byteCount (writtenAll row) + 2 ≤ Lexer.longestSimpleKey) :
    WrittenKey (quoted single row) false key := by
  have hquote : isAllowed (quoteOf single) = true ∧ isBreak (quoteOf single) = false ∧
      (quoteOf single).utf8Size = 1 := by
    cases single <;> decide
  have hall : ∀ ch ∈ quoted single row, isAllowed ch = true ∧ isBreak ch = false :=
    List.forall_mem_cons.2 ⟨⟨hquote.1, hquote.2.1⟩, List.forall_mem_append.2
      ⟨hline, List.forall_mem_singleton.2 ⟨hquote.1, hquote.2.1⟩⟩⟩
  have hreads := Lexer.readsAsKey_quoted h (fun ch hch => (hline ch hch).2) (by
    rw [quoted, List.cons_append, byteCount_cons, byteCount_append, byteCount_cons, hquote.2.2]
    have hnil : byteCount [] = 0 := rfl
    omega)
  rw [String.ofList_toList] at hreads
  exact ⟨fun more => Lexer.next_quoted, fun ch hch => (hall ch hch).2, hreads, scalarMeans_quoted _,
    fun ch hch => (hall ch hch).1⟩

/-- A text on one line stands between single quotes with its quotes doubled. -/
theorem writtenAll_singleRow {text : List Char} (h : text.any isBreak = false) (margin : Nat) :
    writtenAll (singleRow margin text) = text.flatMap doubled := by
  induction text with
  | nil => rfl
  | cons ch text ih =>
    rw [List.any_cons, Bool.or_eq_false_iff] at h
    rw [singleRow, Piece.writtenAll_cons, ih h.2, List.flatMap_cons, h.1, if_neg Bool.false_ne_true]
    congr 1
    split
    next hspace =>
      subst hspace
      rfl
    next => rfl

theorem writtenKey_single {key : String} (h : (Features.ofText key.toList).allowsSingle = true)
    (hbreak : key.toList.any isBreak = false) (hlength : byteCount key.toList ≤ longestKey) :
    WrittenKey ((styled .single key).flatMap Line.text) false key := by
  obtain ⟨hspaced, hallowed⟩ := spaced_of_allowsSingle h (not_mem_of_unbroken hbreak)
  have hrow := quoted_singleRow (Nat.succ_ne_zero 1) hspaced
  have hwritten := writtenKey_quoted hrow
    (fun ch hch => by
      rcases mem_singleRow hch with hmem | rfl | rfl
      · exact ⟨hallowed ch hmem, by simpa using List.any_eq_false.1 hbreak ch hmem⟩
      · decide
      · decide)
    (by
      have hbytes := byteCount_flatMap_le byteCount_doubled key.toList
      rw [writtenAll_singleRow hbreak]
      simp only [longestKey, Lexer.longestSimpleKey] at hlength ⊢
      omega)
  obtain ⟨l, hl⟩ : ∃ l, styled .single key = [l] := singleQuoted_of_unbroken hbreak
  have hjoined := joined_singleQuoted 2 key.toList [] ['\'']
  rw [show singleQuoted.go ['\''] key.toList = [l] from hl] at hjoined
  have htext : l.text ++ [l.ending] = quoted true (singleRow 2 key.toList) ++ ['\n'] := by
    simpa [joined, behind, quoted, quoteOf] using hjoined
  rw [hl, List.flatMap_singleton, (List.append_inj' htext rfl).1]
  exact hwritten

theorem writtenKey_double {key : String} (hlength : byteCount key.toList ≤ longestKey) :
    WrittenKey ((styled .double key).flatMap Line.text) false key := by
  have hrow : Quoted false (spelledRow escape key.toList) key.toList :=
    quoted_spelledRow fun ch _ hne => Text.spells_doubleQuoted hne
  have hrowText : writtenAll (spelledRow escape key.toList) = key.toList.flatMap escape :=
    writtenAll_spelledRow rfl key.toList
  have hwritten := writtenKey_quoted hrow
    (by
      rw [hrowText]
      exact List.forall_mem_flatMap.2 fun ch _ => onLine_escape ch)
    (by
      have hbytes := byteCount_flatMap_le byteCount_escape key.toList
      rw [hrowText]
      simp only [longestKey, Lexer.longestSimpleKey] at hlength ⊢
      omega)
  rw [quoted, hrowText] at hwritten
  simpa [styled, Line.of, doubleQuoted, quoteOf] using hwritten

theorem writtenKey_plain {key : String} (hquotes : needsQuotes key = false)
    (h : (Features.ofText key.toList).allowsPlain = true) (hbreak : key.toList.any isBreak = false)
    (hlength : byteCount key.toList ≤ longestKey) :
    WrittenKey ((styled .plain key).flatMap Line.text) true key := by
  obtain ⟨⟨hplain, hmark, hallowed⟩, hmeans⟩ := plain_of_unquoted hquotes h
  have hreads := Lexer.readsAsKey_plain hplain hmark (Nat.le_trans hlength (by decide))
  rw [String.ofList_toList] at hreads
  have hwritten : WrittenKey key.toList true key :=
    ⟨fun more => hplain.next, fun ch hch => by simpa using List.any_eq_false.1 hbreak ch hch, hreads,
      hmeans, hallowed⟩
  simpa [styled, Line.of] using hwritten

/-- A key that is followed by its value on the same line is read as that key. -/
theorem exists_writtenKey {key : String} (h : isSimpleKey key = true) : ∃ plain,
    WrittenKey ((styled (styleOf true key) key).flatMap Line.text) plain key := by
  rw [isSimpleKey, Bool.and_eq_true, decide_eq_true_eq, Bool.not_eq_true'] at h
  obtain ⟨hlength, hbreak⟩ := h
  rw [← byteCount_toList] at hlength
  have hline : key.toList.contains '\n' = false := by
    simpa using not_mem_of_unbroken hbreak
  have hfeature : (Features.ofText key.toList).lineBreak = false := hbreak
  unfold styleOf
  dsimp only
  rw [hline, if_neg Bool.false_ne_true, hfeature, Bool.and_false, Bool.not_false, Bool.and_true]
  split
  next hplain =>
    rw [Bool.and_eq_true, Bool.not_eq_true'] at hplain
    exact ⟨true, writtenKey_plain hplain.1 hplain.2 hbreak hlength⟩
  next =>
    split
    next hsingle => exact ⟨false, writtenKey_single hsingle hbreak hlength⟩
    next => exact ⟨false, writtenKey_double hlength⟩

end Workflow.Yaml
