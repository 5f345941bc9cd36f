import Workflow.Proofs.Yaml.Outlined
import Workflow.Proofs.Yaml.Styles

/-!
# Written scalars

Every scalar and every empty container is written as an atom that means it (`exists_written`). A number
has to be read back from its YAML text (`ReadsBack`). A string with a line feed must not end with another
break, since the block of such a string does not end its line (`EndsBlock`).
-/

namespace Workflow.Yaml

open Lexer (Plain Quoted quoted ReadsAs ReadsAsKey)
open Yaml.Text (Piece)
open Yaml.Text.Piece (writtenAll quoteOf)

/-- The text of an atom of a value, in a block at a column. -/
structure Written (column : Nat) (text : List Char) (a : Atom) (v : Json) : Prop where
  starts : Starts text
  ends : text.getLast? = some '\n'
  reads : ReadsAs column text a.tokens
  means : a.Means v
  allowed : ∀ ch ∈ text, isAllowed ch = true

theorem endsLine_of_getLast? {text : List Char} (h : text.getLast? = some '\n') : EndsLine text := by
  obtain ⟨front, rfl⟩ := List.getLast?_eq_some_iff.1 h
  exact ⟨front, '\n', isBreak_lineFeed, rfl⟩

theorem Written.fits {column : Nat} {text : List Char} {a : Atom} {v : Json}
    (h : Written column text a v) : Layout.AtomFits column text a :=
  ⟨⟨h.starts, endsLine_of_getLast? h.ends⟩, h.reads⟩

variable {column : Nat} {text : List Char} {v : Json}

theorem allowed_concat (h : ∀ ch ∈ text, isAllowed ch = true) :
    ∀ ch ∈ text ++ ['\n'], isAllowed ch = true :=
  List.forall_mem_append.2 ⟨h, List.forall_mem_singleton.2 (by decide)⟩

theorem written_plain (column : Nat) (h : Plain text) (hallowed : ∀ ch ∈ text, isAllowed ch = true)
    (hmeans : Node.ScalarMeans true (String.ofList text) v) :
    Written column (text ++ ['\n']) (.scalar true (String.ofList text)) v where
  starts := fun more => by
    rw [List.append_assoc]
    exact h.next
  ends := List.getLast?_concat
  reads := Lexer.readsAs_plain h
  means := hmeans
  allowed := allowed_concat hallowed

theorem scalarMeans_quoted (s : String) : Node.ScalarMeans false s (.str s) := rfl

theorem written_quoted (column : Nat) {single : Bool} {row : List Piece} (h : Quoted single row text)
    (hallowed : ∀ ch ∈ writtenAll row, isAllowed ch = true) :
    Written column (quoted single row ++ ['\n']) (.scalar false (String.ofList text))
      (.str (String.ofList text)) where
  starts := fun more => by
    rw [List.append_assoc]
    exact Lexer.next_quoted
  ends := List.getLast?_concat
  reads := Lexer.readsAs_quoted h
  means := scalarMeans_quoted _
  allowed := by
    have hquote : isAllowed (quoteOf single) = true := by cases single <;> decide
    refine allowed_concat (List.forall_mem_cons.2 ⟨hquote, List.forall_mem_append.2 ⟨hallowed, ?_⟩⟩)
    exact List.forall_mem_singleton.2 hquote

/-! ### Strings -/

theorem onLine_hexNumeral {width n : Nat} :
    ∀ ch ∈ hexNumeral width n, isAllowed ch = true ∧ isBreak ch = false := fun ch hch =>
  have hdigits : ∀ ch ∈ "0123456789ABCDEF".toList, isAllowed ch = true ∧ isBreak ch = false :=
    List.all_iff_forall_prop.1 (by decide)
  hdigits ch (hexNumeral_subset width n hch)

theorem onLine_escape (ch : Char) : ∀ d ∈ escape ch, isAllowed d = true ∧ isBreak d = false := by
  have hnumber : ∀ letter ∈ ['x', 'u', 'U'], ∀ width,
      ∀ d ∈ '\\' :: letter :: hexNumeral width ch.toNat, isAllowed d = true ∧ isBreak d = false := by
    intro letter hletter width
    have hline : ∀ letter ∈ ['x', 'u', 'U'], isAllowed letter = true ∧ isBreak letter = false :=
      List.all_iff_forall_prop.1 (by decide)
    exact List.forall_mem_cons.2 ⟨by decide, List.forall_mem_cons.2 ⟨hline letter hletter,
      onLine_hexNumeral⟩⟩
  unfold escape
  split
  next h =>
    simp only [Bool.and_eq_true, Bool.not_eq_true'] at h
    exact List.forall_mem_singleton.2 ⟨isAllowed_of_isPrintable h.1.1.1, h.1.1.2⟩
  next =>
    split
    next letter hletter =>
      have hline : isAllowed letter = true ∧ isBreak letter = false := by
        unfold escapeLetter? at hletter
        split at hletter <;> first | (obtain rfl := Option.some.inj hletter; decide) | cases hletter
      exact List.forall_mem_cons.2 ⟨by decide, List.forall_mem_singleton.2 hline⟩
    next =>
      split
      · exact hnumber 'x' (by decide) 2
      · split
        · exact hnumber 'u' (by decide) 4
        · exact hnumber 'U' (by decide) 8

/-- Between single quotes stand the characters of the text, quotes and spaces. -/
theorem mem_singleRow {margin : Nat} {ch : Char} (h : ch ∈ writtenAll (singleRow margin text)) :
    ch ∈ text ∨ ch = '\'' ∨ ch = ' ' := by
  induction text with
  | nil => cases h
  | cons d text ih =>
    rw [singleRow, Piece.writtenAll_cons, List.mem_append] at h
    rcases h with h | h
    · have hblank : ∀ n, ch ∈ (Piece.blank d n).written → ch ∈ d :: text ∨ ch = '\'' ∨ ch = ' ' := by
        intro n hmem
        rcases List.mem_cons.1 hmem with rfl | hmem
        · exact .inl List.mem_cons_self
        · exact .inr (.inr (mem_spaces hmem))
      split at h
      · exact hblank _ h
      · split at h
        · exact hblank _ h
        · change ch ∈ doubled d at h
          unfold doubled at h
          split at h
          · exact .inr (.inl (by simpa using h))
          · exact .inl (List.mem_singleton.1 h ▸ List.mem_cons_self)
    · exact (ih h).imp_left (List.mem_cons_of_mem d)

theorem isAllowed_singleRow {margin : Nat} (h : ∀ ch ∈ text, isAllowed ch = true) :
    ∀ ch ∈ writtenAll (singleRow margin text), isAllowed ch = true := by
  intro ch hch
  rcases mem_singleRow hch with hmem | rfl | rfl
  · exact h ch hmem
  · rfl
  · rfl

/-- A text between double quotes is one line. -/
theorem written_double (column : Nat) (s : String) :
    Written column (joined (styled .double s)) (.scalar false s) (.str s) := by
  have hrow : Quoted false (spelledRow escape s.toList) s.toList :=
    quoted_spelledRow fun ch _ hne => Text.spells_doubleQuoted hne
  have hwritten : writtenAll (spelledRow escape s.toList) = s.toList.flatMap escape :=
    writtenAll_spelledRow rfl s.toList
  have hquoted := written_quoted column hrow (by
    rw [hwritten]
    exact List.forall_mem_flatMap.2 fun ch _ d hd => (onLine_escape ch d hd).1)
  rw [quoted, hwritten, String.ofList_toList] at hquoted
  simpa [joined, styled, Line.of, doubleQuoted, quoteOf] using hquoted

theorem written_single {s : String} (h : (Features.ofText s.toList).allowsSingle = true)
    (hline : '\n' ∉ s.toList) :
    Written column (joined (behind [] (column + 2) (styled .single s))) (.scalar false s) (.str s) := by
  obtain ⟨hspaced, hallowed⟩ := spaced_of_allowsSingle h hline
  have hrow := quoted_singleRow (Nat.succ_ne_zero (column + 1)) hspaced
  have hquoted := written_quoted column hrow (isAllowed_singleRow hallowed)
  rw [String.ofList_toList] at hquoted
  rw [styled, singleQuoted, joined_singleQuoted]
  simpa [quoted, quoteOf] using hquoted

/-- A text whose lines end with a line feed when it is written as a block: it does not end with
another break. -/
def EndsBlock (text : List Char) : Prop :=
  '\n' ∈ text → ∀ ch ∈ text.getLast?, isBreak ch = true → ch = '\n'

instance (text : List Char) : Decidable (EndsBlock text) :=
  @forall_prop_decidable _ _ _ fun _ => Option.decidableForallMem _

theorem joined_map_indent (n : Nat) (ls : List Line) :
    joined (ls.map (Line.indent n)) = Text.bodyAt n ls := by
  rw [joined, Text.bodyAt, List.flatMap_map]
  congr 1
  funext l
  unfold Line.indent
  split <;> rfl

theorem bodyAt_concat (n : Nat) (ls : List Line) (l : Line) :
    Text.bodyAt n (ls ++ [l]) = Text.bodyAt n ls ++ (l.indent n).text ++ [l.ending] := by
  simp [Text.bodyAt]

/-- The first line of a text goes on with what was read of it. -/
theorem exists_splitLines_cons {acc : List Char} (hacc : acc ≠ []) (text : List Char) :
    ∃ l ls more, splitLines.go acc text = l :: ls ∧ l.text = acc.reverse ++ more := by
  induction text generalizing acc with
  | nil => exact ⟨.of acc.reverse, [], [], by simp [splitLines.go, hacc], (List.append_nil _).symm⟩
  | cons ch text ih =>
    rw [splitLines.go]
    split
    · exact ⟨_, _, [], rfl, (List.append_nil _).symm⟩
    · obtain ⟨l, ls, more, hlines, htext⟩ := ih (List.cons_ne_nil ch acc)
      exact ⟨l, ls, ch :: more, hlines, by simpa using htext⟩

theorem InBlock.settles {p : Nat} (h : InBlock text) (hcolumn : p < column)
    (hhint : hintOf text = true → column = p + 2) :
    Text.Settles (hintOf text) (some p) column (splitLines text) := by
  unfold Text.Settles
  split
  next htold => exact hhint htold
  next htold =>
    refine ⟨fun n hn => ?_, ?_⟩
    · obtain rfl := Option.mem_some.1 hn
      exact hcolumn
    · obtain ⟨ch, text, rfl⟩ := List.exists_cons_of_ne_nil h.ne_nil
      have hfirst : ¬(ch = ' ') ∧ isBreak ch = false := by simpa [hintOf] using htold
      have htab : ch ≠ '\t' := fun htab => h.head (congrArg some htab)
      obtain ⟨l, ls, more, hlines, htext⟩ := exists_splitLines_cons (List.cons_ne_nil ch []) text
      refine ⟨l, ls, ?_, ?_⟩
      · rw [splitLines, splitLines.go, if_neg (by simp [hfirst.2])]
        exact hlines
      · rw [htext]
        simp [isBlank, isSpace, hfirst, htab]

theorem isAllowed_bodyAt {n : Nat} {ls : List Line}
    (h : ∀ l ∈ ls, (∀ ch ∈ l.text, isAllowed ch = true) ∧ isAllowed l.ending = true) :
    ∀ ch ∈ Text.bodyAt n ls, isAllowed ch = true := by
  refine List.forall_mem_flatMap.2 fun l hl => List.forall_mem_append.2
    ⟨?_, List.forall_mem_singleton.2 (h l hl).2⟩
  unfold Line.indent
  split
  · exact (h l hl).1
  · refine List.forall_mem_append.2 ⟨fun ch hch => ?_, (h l hl).1⟩
    rw [List.eq_of_mem_replicate hch]
    rfl

/-- A text as a literal block. -/
def literalText (column : Nat) (text : List Char) : List Char :=
  Lexer.literal (hintOf text) (chompOf text) column (splitLines text)

/-- A literal block of a text in which a text that begins with a blank stands two columns further right
than the block around it. -/
theorem written_block {p : Nat} (h : InBlock text) (hcolumn : p < column)
    (hhint : hintOf text = true → column = p + 2)
    (hends : ∀ ch, text.getLast? = some ch → isBreak ch = true → ch = '\n') :
    Written p (literalText column text) (.scalar false (String.ofList text))
      (.str (String.ofList text)) := by
  obtain ⟨ls, l, hlines, hend⟩ := @exists_splitLines [] text h.ne_nil
  replace hlines : splitLines text = ls ++ [l] := hlines
  refine ⟨fun more => next_cons.2 (by decide), ?_, ?_, scalarMeans_quoted _, ?_⟩
  · have hending : l.ending = '\n' := by
      split at hend
      next =>
        have hlast : text.getLast? = some l.ending := by
          rw [show text = _ from hend, List.getLast?_concat]
        have hl : l ∈ splitLines text := by
          rw [hlines]
          exact List.mem_append_right _ (List.mem_singleton_self l)
        exact hends _ hlast (h.fits l hl).1.2.1
      next => exact hend.1
    have hbody : ∃ front, literalText column text = front ++ ['\n'] := by
      rw [literalText, Lexer.literal, hlines, bodyAt_concat, hending]
      exact ⟨'|' :: (Text.headOf (hintOf text) (chompOf text) ++
        '\n' :: (Text.bodyAt column ls ++ (l.indent column).text)), by simp⟩
    obtain ⟨front, hfront⟩ := hbody
    rw [hfront, List.getLast?_concat]
  · have hreads := Lexer.readsAs_literal (chompOf text) hcolumn
      (h.settles hcolumn hhint) fun l hl => (h.fits l hl).1
    rwa [h.content_eq] at hreads
  · have hhead : ∀ (hint : Bool) (chomp : Text.Chomp), ∀ ch ∈ '|' :: Text.headOf hint chomp,
        isAllowed ch = true := by
      intro hint chomp
      cases hint <;> cases chomp <;> exact List.all_iff_forall_prop.1 (by decide)
    have hbody : ∀ ch ∈ Text.bodyAt column (splitLines text), isAllowed ch = true := by
      refine isAllowed_bodyAt fun l hl => ?_
      have hpart := isPart_splitLines rfl l hl
      refine ⟨fun ch hch => h.allowed ch (hpart.part.subset hch), ?_⟩
      rcases ending_splitLines l hl with hline | hmem
      · rw [hline]
        rfl
      · exact h.allowed _ hmem
    exact List.forall_mem_append.2 ⟨hhead _ _, List.forall_mem_cons.2 ⟨rfl, hbody⟩⟩

theorem written_literal {s : String} (h : (Features.ofText s.toList).allowsBlock = true)
    (hline : '\n' ∈ s.toList) (hends : EndsBlock s.toList) :
    Written column (joined (behind [] (column + 2) (styled .literal s))) (.scalar false s) (.str s) := by
  simp only [Features.allowsBlock, Features.ofText, Bool.not_eq_true', Bool.or_eq_false_iff,
    List.any_eq_false] at h
  have hblock : InBlock s.toList := inBlock_of_isPrintable (List.ne_nil_of_mem hline)
    fun ch hch => by simpa using h.2 ch hch
  have hwritten : Written column (literalText (column + 2) s.toList) _ _ :=
    written_block hblock (by omega) (fun _ => rfl) (hends hline)
  rw [String.ofList_toList] at hwritten
  have htext : joined (behind [] (column + 2) (styled .literal s)) =
      literalText (column + 2) s.toList := by
    rw [styled, behind, joined_cons, joined_map_indent, literalHead_eq]
    rfl
  rwa [htext]

/-- A string that is written without quotes is read as that string. -/
theorem resolve_of_needsQuotes {s : String} (h : needsQuotes s = false) :
    Scalar.resolve s = .str s := by
  rw [needsQuotes, Bool.or_eq_false_iff] at h
  split at h
  next text hresolve =>
    obtain rfl := Scalar.eq_of_resolve hresolve
    exact hresolve
  next => cases h.2

/-- A string that can stand without quotes. -/
theorem plain_of_unquoted {s : String} (hquotes : needsQuotes s = false)
    (h : (Features.ofText s.toList).allowsPlain = true) :
    (Plain s.toList ∧ Features.isDocumentMark s.toList = false ∧ ∀ ch ∈ s.toList, isAllowed ch = true) ∧
      Node.ScalarMeans true s (.str s) := by
  have hresolve := resolve_of_needsQuotes hquotes
  have hne : s.toList ≠ [] := by
    intro hnil
    obtain rfl : s = "" := String.toList_eq_nil_iff.1 hnil
    cases hresolve
  exact ⟨plain_of_allowsPlain hne h,
    congrArg (Option.bind · Part.scalarJson?) (congrArg some hresolve)⟩

theorem written_plainString (column : Nat) {s : String} (hquotes : needsQuotes s = false)
    (h : (Features.ofText s.toList).allowsPlain = true) :
    Written column (joined (styled .plain s)) (.scalar true s) (.str s) := by
  obtain ⟨⟨hplain, -, hallowed⟩, hmeans⟩ := plain_of_unquoted hquotes h
  have hwritten := written_plain column hplain hallowed (by
    rw [String.ofList_toList]
    exact hmeans)
  rw [String.ofList_toList] at hwritten
  simpa [joined, styled, Line.of] using hwritten

/-- A string is written as an atom that means it. -/
theorem exists_written_str {s : String} (h : EndsBlock s.toList) : ∃ plain,
    Written column (joined (behind [] (column + 2) (styled (styleOf false s) s))) (.scalar plain s)
      (.str s) := by
  have hone : ∀ ls : List Line, ls.length = 1 → joined (behind [] (column + 2) ls) = joined ls := by
    intro ls hls
    obtain ⟨l, rfl⟩ := List.length_eq_one_iff.1 hls
    rfl
  have hdouble := written_double column s
  rw [← hone _ rfl] at hdouble
  unfold styleOf
  dsimp only
  rw [Bool.not_false, Bool.and_true, Bool.false_and, Bool.not_false, Bool.and_true]
  split
  next hline =>
    split
    next hblock => exact ⟨false, written_literal hblock (by simpa using hline) h⟩
    next => exact ⟨false, hdouble⟩
  next hline =>
    split
    next hplain =>
      rw [Bool.and_eq_true, Bool.not_eq_true'] at hplain
      have hwritten := written_plainString column hplain.1 hplain.2
      rw [← hone _ rfl] at hwritten
      exact ⟨true, hwritten⟩
    next =>
      split
      next hsingle => exact ⟨false, written_single hsingle (by simpa using hline)⟩
      next => exact ⟨false, hdouble⟩

/-! ### Numbers -/

/-- A number whose YAML text is read back as that number. -/
def ReadsBack (n : Number) : Prop := Node.ScalarMeans true (String.ofList (numberChars n)) (.num n)

instance (n : Number) : Decidable (ReadsBack n) :=
  inferInstanceAs (Decidable (_ = some (Json.num n)))

/-- A character that can stand anywhere in a plain scalar, but for a dash in front of a blank. -/
def InWord (ch : Char) : Prop :=
  isBlank ch = false ∧ isAllowed ch = true ∧ ch ∉ [':', '?', byteOrderMark] ∧
    ch ∉ Features.leadingIndicators

instance (ch : Char) : Decidable (InWord ch) :=
  inferInstanceAs (Decidable (_ ∧ _ ∧ _ ∧ _))

theorem InNumeral.inWord {ch : Char} (h : InNumeral ch) : InWord ch := by
  rcases h with hdigit | hmark
  · have hdigits : ∀ k < 58, 48 ≤ k → InWord (Char.ofNat k) := by decide
    have hrange := Char.isDigit_iff_toNat.1 hdigit
    rw [← Char.ofNat_toNat ch]
    exact hdigits _ (Nat.lt_succ_of_le hrange.2) hrange.1
  · have hmarks : ∀ ch ∈ ['.', 'e', '-', '+'], InWord ch := List.all_iff_forall_prop.1 (by decide)
    exact hmarks ch hmark

/-- Characters of a word are a plain scalar, unless they are a dash alone. -/
theorem plain_of_inWord (hne : text ≠ []) (hdash : text ≠ ['-']) (h : ∀ ch ∈ text, InWord ch) :
    Plain text := by
  have hword : Text.Word text := by
    refine ⟨hne, fun ch hch => (h ch hch).1, fun hhead => ?_, fun hlast => ?_⟩
    · exact (h _ (List.mem_of_head? hhead)).2.2.2 (by decide)
    · exact (h _ (List.mem_of_getLast? hlast)).2.2.1 (by decide)
  obtain ⟨ch, text, rfl⟩ := List.exists_cons_of_ne_nil hne
  obtain ⟨-, -, hmarks, hindicator⟩ := h ch List.mem_cons_self
  refine ⟨.one hword, ?_, fun hhead => ?_⟩
  · have hblank : ch = '-' → atBlank text = false := by
      rintro rfl
      cases text with
      | nil => exact absurd rfl hdash
      | cons d text => exact (h d (by simp)).1
    simp only [List.mem_cons, not_or] at hmarks
    simp only [Features.indicatorAtStart, List.contains_eq_mem, hindicator, hmarks]
    by_cases hch : ch = '-' <;> simp [hch, hblank]
  · obtain rfl : ch = byteOrderMark := Option.some.inj hhead
    exact hmarks (by simp)

theorem plain_numberChars {n : Number} (h : ReadsBack n) :
    Plain (numberChars n) ∧ ∀ ch ∈ numberChars n, isAllowed ch = true := by
  have hchars := fun ch hch => (inNumeral_numberChars n ch hch).inWord
  have hnot : ∀ text : List Char, Scalar.resolve (String.ofList text) = .null ∨
      Scalar.resolve (String.ofList text) = .str "-" → numberChars n ≠ text := by
    rintro text htext rfl
    have hmeans : Part.scalarJson? (Scalar.resolve (String.ofList (numberChars n))) = some (.num n) := h
    rcases htext with htext | htext <;> rw [htext] at hmeans <;> cases hmeans
  refine ⟨plain_of_inWord (hnot [] (.inl rfl)) (hnot ['-'] (.inr ?_)) hchars,
    fun ch hch => (hchars ch hch).2.1⟩
  decide +kernel

theorem written_number {n : Number} (h : ReadsBack n) :
    Written column (joined (scalarLines (.num n))) (.scalar true (String.ofList (numberChars n)))
      (.num n) := by
  obtain ⟨hplain, hallowed⟩ := plain_numberChars h
  simpa [joined, scalarLines, Line.of] using written_plain column hplain hallowed h

/-! ### All scalars -/

theorem written_brackets {first last : Char} {start stop : Token} {a : Atom}
    (h : Lexer.Brackets first last start stop) (ha : a.tokens = [start, stop]) (hmeans : a.Means v) :
    Written column [first, last, '\n'] a v where
  starts := by cases h <;> exact starts_cons (by decide)
  ends := rfl
  reads := ha ▸ Lexer.readsAs_brackets h
  means := hmeans
  allowed := by cases h <;> exact List.all_iff_forall_prop.1 (by decide)

theorem written_word {word : String} (hword : ∀ ch ∈ word.toList, InWord ch)
    (hne : word.toList ≠ []) (hdash : word.toList ≠ ['-']) (hmeans : Node.ScalarMeans true word v) :
    Written column (word.toList ++ ['\n']) (.scalar true word) v := by
  have hwritten := written_plain column (plain_of_inWord hne hdash hword)
    (fun ch hch => (hword ch hch).2.1) (by rw [String.ofList_toList]; exact hmeans)
  rwa [String.ofList_toList] at hwritten

/-- A value that is not laid out as a block is written as an atom that means it. -/
theorem exists_written (harr : ∀ x items, v ≠ .arr (x :: items))
    (hobj : ∀ e fields, v ≠ .obj (e :: fields)) (hnumber : ∀ n, v = .num n → ReadsBack n)
    (htext : ∀ s, v = .str s → EndsBlock s.toList) : ∃ a,
      Written column (joined (behind [] (column + 2) (scalarLines v))) a v := by
  cases v with
  | null => exact ⟨_, @written_word column _ "null" (List.all_iff_forall_prop.1 (by decide)) (by decide)
      (by decide) rfl⟩
  | bool b =>
    cases b with
    | false => exact ⟨_, @written_word column _ "false" (List.all_iff_forall_prop.1 (by decide)) (by decide)
        (by decide) rfl⟩
    | true => exact ⟨_, @written_word column _ "true" (List.all_iff_forall_prop.1 (by decide)) (by decide)
        (by decide) rfl⟩
  | num n => exact ⟨_, written_number (hnumber n rfl)⟩
  | str s =>
    obtain ⟨plain, h⟩ := exists_written_str (htext s rfl)
    exact ⟨_, h⟩
  | arr items =>
    cases items with
    | nil => exact ⟨.list, written_brackets .list rfl rfl⟩
    | cons x items => exact absurd rfl (harr x items)
  | obj fields =>
    cases fields with
    | nil => exact ⟨.record, written_brackets .record rfl rfl⟩
    | cons e fields => exact absurd rfl (hobj e fields)

end Workflow.Yaml
