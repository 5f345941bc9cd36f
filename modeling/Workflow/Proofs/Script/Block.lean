import Mathlib.Data.Bool.AllAny
import Workflow.Proofs.Json.Quoted
import Workflow.Proofs.Script.Search
import Workflow.Proofs.Transform.Inverse

/-!
# Scripts as literal blocks

A line becomes a block when nothing but dashes and a key stand in front of a quoted script, nothing
but blanks stand behind it, and a block can hold the script (`Expandable`). Two scans go over the text
in front: `afterDashes` looks for the key, `keyColumn` counts its column, and they agree about where
the key begins (`exists_dashes`). The block is indented more than the key, and its lines without the
padding are the script (`blockOf_isBlock`). Every other line is copied
(`expandBlocks_reads_back`).
-/

namespace Workflow.Script

/-! ### The text in front -/

theorem keyColumn_eq_add (text : List Char) :
    keyColumn text =
      (text.takeWhile (· = ' ')).length + keyColumn (text.dropWhile (· = ' ')) := by
  induction text with
  | nil => rfl
  | cons c rest ih =>
    by_cases hc : c = ' '
    · subst hc
      rw [keyColumn, ih, List.takeWhile_cons_of_pos (by simp), List.dropWhile_cons_of_pos (by simp),
        List.length_cons]
      omega
    · rw [List.takeWhile_cons_of_neg (by simpa using hc),
        List.dropWhile_cons_of_neg (by simpa using hc)]
      exact (Nat.zero_add _).symm

/-- The key begins where the count of its column ends: in front of it are spaces and dashes only. -/
theorem exists_dashes {fuel : Nat} {text : List Char} (h : text.length ≤ fuel) :
    ∃ dashes, text = dashes ++ afterDashes fuel text ∧ (∀ c ∈ dashes, c = ' ' ∨ c = '-') ∧
      keyColumn text = dashes.length := by
  induction fuel generalizing text with
  | zero =>
    obtain rfl := List.eq_nil_of_length_eq_zero (Nat.le_zero.1 h)
    exact ⟨[], rfl, nofun, rfl⟩
  | succ fuel ih =>
    have hsplit := List.takeWhile_append_dropWhile (p := (· = ' ')) (l := text)
    have hspaces : ∀ c ∈ text.takeWhile (· = ' '), c = ' ' := fun c hc =>
      of_decide_eq_true (List.all_eq_true.1 List.all_takeWhile c hc)
    rw [keyColumn_eq_add, afterDashes]
    split
    next rest hrest =>
      have hlength : rest.length ≤ fuel := by
        have hle := (List.dropWhile_suffix (p := (· = ' ')) (l := text)).length_le
        rw [hrest] at hle
        simp only [List.length_cons] at hle
        omega
      obtain ⟨dashes, htext, hdashes, hcolumn⟩ := ih hlength
      refine ⟨text.takeWhile (· = ' ') ++ '-' :: ' ' :: dashes, ?_, ?_, ?_⟩
      · rw [List.append_assoc, List.cons_append, List.cons_append, ← htext, ← hrest, hsplit]
      · intro c hc
        rcases List.mem_append.1 hc with hc | hc
        · exact .inl (hspaces c hc)
        · rcases List.mem_cons.1 hc with rfl | hc
          · exact .inr rfl
          · rcases List.mem_cons.1 hc with rfl | hc
            · exact .inl rfl
            · exact hdashes c hc
      · rw [hrest, keyColumn, hcolumn, List.length_append, List.length_cons, List.length_cons]
        omega
    next rest hnot =>
      refine ⟨text.takeWhile (· = ' '), hsplit.symm, fun c hc => .inl (hspaces c hc), ?_⟩
      have hhead : ∀ c more, text.dropWhile (· = ' ') = c :: more → c ≠ ' ' := by
        intro c more hmore
        have hget := List.head?_dropWhile_not (· = ' ') text
        rw [hmore] at hget
        simpa using hget
      have hzero : keyColumn (text.dropWhile (· = ' ')) = 0 := by
        unfold keyColumn
        split
        next more hmore => exact absurd hmore (hnot more)
        next more hmore => exact absurd rfl (hhead _ more hmore)
        next => rfl
      rw [hzero, Nat.add_zero]

/-- The column of the key is what stands in front of it. -/
theorem keyColumn_eq (text : List Char) :
    keyColumn text = text.length - (afterDashes text.length text).length := by
  obtain ⟨dashes, htext, -, hcolumn⟩ := exists_dashes (Nat.le_refl text.length)
  have hlength := congrArg List.length htext
  rw [List.length_append] at hlength
  omega

/-- What may stand in front of a value has no quote. -/
theorem quote_not_mem_of_startsValue {before : List Char} (h : startsValue before = true) :
    '"' ∉ before := by
  obtain ⟨dashes, htext, hdashes, -⟩ := exists_dashes (Nat.le_refl before.length)
  rw [htext, List.mem_append, not_or]
  refine ⟨fun hmem => ?_, ?_⟩
  · rcases hdashes _ hmem with h | h <;> cases h
  · unfold startsValue at h
    split at h
    next hnone => exact hnone ▸ List.not_mem_nil
    next =>
      split at h
      next key hkey =>
        simp only [Bool.and_eq_true, Bool.not_eq_true', List.any_eq_false, Bool.or_eq_true,
          decide_eq_true_eq, not_or] at h
        rw [Transform.eq_of_beforeEnd? hkey, List.mem_append, not_or]
        exact ⟨fun hmem => (h.2 _ hmem).1.1.2 rfl, by decide⟩
      next => cases h

/-! ### Lines that become blocks -/

/-- A line whose whole value is a quoted script that a block holds. -/
structure Expandable (line before literal blanks script : List Char) : Prop where
  split : line = before ++ literal ++ blanks
  /-- Nothing but dashes and a key stand in front. -/
  starts : startsValue before = true
  /-- The quoted string begins with the mark of a script as it is. -/
  marked : '"' :: opening <+: literal
  reads : Json.Quoted.unquote? literal = some script
  opened : opening <+: script
  closed : closing <:+ script
  fits : ∀ c ∈ script, fitsBlock c = true
  blank : ∀ c ∈ blanks, Text.isBlank c = true

theorem trimEnd_append_blanks {text blanks : List Char}
    (h : ∀ c ∈ blanks, Text.isBlank c = true) : Text.trimEnd (text ++ blanks) = Text.trimEnd text := by
  have hnil : Text.dropEnd Text.isBlank blanks = [] := by
    induction blanks with
    | nil => rfl
    | cons c blanks ih =>
      rw [Text.dropEnd, ih fun d hd => h d (List.mem_cons_of_mem c hd)]
      exact if_pos (h c List.mem_cons_self)
  unfold Text.trimEnd
  induction text with
  | nil => exact hnil
  | cons c text ih => rw [List.cons_append, Text.dropEnd, ih, Text.dropEnd]

/-- The mark of a script has no blank, so blanks at the end of a text are not part of it. -/
theorem marked_of_append {literal blanks : List Char} (h : '"' :: opening <+: literal ++ blanks)
    (hblank : ∀ c ∈ blanks, Text.isBlank c = true) : '"' :: opening <+: literal := by
  have hmark : ∀ c ∈ '"' :: opening, Text.isBlank c = false :=
    List.all_iff_forall_prop.1 (by decide)
  rcases Nat.le_total ('"' :: opening).length literal.length with hle | hle
  · exact List.prefix_of_prefix_length_le h (List.prefix_append literal blanks) hle
  · obtain ⟨tail, htail⟩ := List.prefix_of_prefix_length_le (List.prefix_append literal blanks) h hle
    rw [← htail, List.prefix_append_right_inj] at h
    cases tail with
    | nil =>
      rw [List.append_nil] at htail
      exact htail ▸ List.prefix_refl literal
    | cons c tail =>
      have hc := hmark c (htail ▸ List.mem_append_right literal List.mem_cons_self)
      rw [hblank c (h.subset List.mem_cons_self)] at hc
      cases hc

/-- Which lines become blocks, and which blocks. -/
theorem expandLineChars_eq_some_iff {line block : List Char} {indent : Nat} :
    expandLineChars line indent = some block ↔
      ∃ before literal blanks script, Expandable line before literal blanks script ∧
        block = blockOf before (keyColumn before + indent) script := by
  constructor
  · intro hline
    obtain ⟨⟨before, quoted⟩, hsplit, h⟩ := Option.bind_eq_some_iff.1 hline
    obtain ⟨rfl, hmark, -⟩ := splitAt?_eq_some_iff.1 hsplit
    dsimp only at h
    split at h
    next => cases h
    next hstarts =>
      obtain ⟨script, hreads, h⟩ := Option.bind_eq_some_iff.1 h
      split at h
      next hfits =>
        simp only [Bool.and_eq_true, List.isPrefixOf_iff_prefix, List.isSuffixOf_iff_suffix,
          List.all_eq_true] at hfits
        obtain ⟨blanks, hquoted, hblank⟩ := Text.dropEnd_prefix Text.isBlank quoted
        rw [hquoted] at hmark
        refine ⟨before, Text.trimEnd quoted, blanks, script, ⟨?_, by simpa using hstarts,
          marked_of_append hmark hblank, hreads, hfits.1.1, hfits.1.2, hfits.2, hblank⟩,
          (Option.some.inj h).symm⟩
        rw [List.append_assoc]
        exact congrArg (before ++ ·) hquoted
      next => cases h
  · rintro ⟨before, literal, blanks, script, h, rfl⟩
    obtain ⟨more, hliteral⟩ := h.marked
    have hsplit : splitAt? ('"' :: opening) line = some (before, literal ++ blanks) := by
      have hfirst := splitAt?_of_not_mem (quote_not_mem_of_startsValue h.starts) opening
        (more ++ blanks)
      rwa [← List.append_assoc ('"' :: opening), hliteral, ← List.append_assoc, ← h.split] at hfirst
    obtain ⟨front, hfront⟩ := Json.Quoted.exists_of_unquote? h.reads
    have htrim : Text.trimEnd (literal ++ blanks) = literal := by
      rw [trimEnd_append_blanks h.blank, hfront]
      exact Text.trimEnd_concat (by decide) front
    have hfits : (opening.isPrefixOf script && closing.isSuffixOf script && script.all fitsBlock)
        = true := by
      simp only [Bool.and_eq_true, List.isPrefixOf_iff_prefix, List.isSuffixOf_iff_suffix,
        List.all_eq_true]
      exact ⟨⟨h.opened, h.closed⟩, h.fits⟩
    simp only [expandLineChars, Option.bind_eq_bind, hsplit, Option.bind_some, h.starts,
      Bool.not_true, Bool.false_eq_true, if_false, htrim, h.reads, hfits, if_true]

/-- A quoted script that fits a block becomes one. -/
theorem expandLineChars_quote {before script : List Char} (hstarts : startsValue before = true)
    (hopened : opening <+: script) (hclosed : closing <:+ script)
    (hfits : ∀ c ∈ script, fitsBlock c = true) (indent : Nat) :
    expandLineChars (before ++ Json.Quoted.quote script) indent =
      some (blockOf before (keyColumn before + indent) script) := by
  have hmarked : '"' :: opening <+: Json.Quoted.quote script := by
    have hplain : opening.flatMap Json.Quoted.escape = opening := by decide
    obtain ⟨more, rfl⟩ := hopened
    refine ⟨more.flatMap Json.Quoted.escape ++ ['"'], ?_⟩
    rw [Json.Quoted.quote, List.flatMap_append, hplain, ← List.append_assoc]
    rfl
  exact expandLineChars_eq_some_iff.2 ⟨before, _, [], script, ⟨(List.append_nil _).symm, hstarts,
    hmarked, Json.Quoted.unquote?_quote script, hopened, hclosed, hfits,
    fun c hc => absurd hc List.not_mem_nil⟩, rfl⟩

theorem Expandable.blanks_eq_nil {front before literal blanks script : List Char}
    (h : Expandable (front ++ ['"']) before literal blanks script) : blanks = [] := by
  rcases List.eq_nil_or_concat' blanks with hnil | ⟨init, last, rfl⟩
  · exact hnil
  · have hlast := h.blank last (List.mem_append_right init (List.mem_singleton_self last))
    have hends := congrArg List.getLast? h.split
    rw [List.getLast?_concat, ← List.append_assoc, List.getLast?_concat] at hends
    obtain rfl := Option.some.inj hends
    exact absurd hlast (by decide)

/-- Of a line that ends in a quoted text behind a space, that text is the script. -/
theorem expandable_of_quote {front script block : List Char} {indent : Nat}
    (h : expandLineChars (front ++ [' '] ++ Json.Quoted.quote script) indent = some block) :
    Expandable (front ++ [' '] ++ Json.Quoted.quote script) (front ++ [' '])
        (Json.Quoted.quote script) [] script ∧
      block = blockOf (front ++ [' ']) (keyColumn (front ++ [' ']) + indent) script := by
  obtain ⟨before, literal, blanks, script', hline, rfl⟩ := expandLineChars_eq_some_iff.1 h
  obtain rfl : blanks = [] := by
    rw [Json.Quoted.quote, ← List.append_assoc] at hline
    exact hline.blanks_eq_nil
  have hsame : before = front ++ [' '] ∧ literal = Json.Quoted.quote script := by
    have hreads := hline.reads
    obtain ⟨more, rfl⟩ := hline.marked
    have hsplit := hline.split
    rw [List.append_nil] at hsplit
    rcases List.append_eq_append_iff.1 hsplit with ⟨between, rfl, hquote⟩ | ⟨between, hfront, hliteral⟩
    · -- The text in front of the string has no quote, so it ends where the quoted text begins.
      cases between with
      | nil => exact ⟨List.append_nil _, hquote.symm⟩
      | cons c between =>
        obtain ⟨rfl, -⟩ := List.cons.inj hquote
        exact absurd (List.mem_append_right _ List.mem_cons_self)
          (quote_not_mem_of_startsValue hline.starts)
    · -- A string that begins further in front goes on behind the quote after the space.
      cases between with
      | nil => exact ⟨by rw [hfront, List.append_nil], hliteral⟩
      | cons c between =>
        obtain ⟨rfl, -⟩ := List.cons.inj hliteral
        have hends := congrArg List.getLast? hfront
        rw [List.getLast?_concat] at hends
        rcases List.eq_nil_or_concat' between with rfl | ⟨between, d, rfl⟩
        · rw [List.getLast?_concat] at hends
          cases hends
        · rw [← List.cons_append, ← List.append_assoc, List.getLast?_concat] at hends
          obtain rfl := Option.some.inj hends
          have hclosed : script.flatMap Json.Quoted.escape ++ ['"'] ≠ [] :=
            List.append_ne_nil_of_right_ne_nil _ (List.cons_ne_nil _ _)
          have hnone : Json.Quoted.unquote?
              ('"' :: (between ++ [' ']) ++ Json.Quoted.quote script) = none := by
            simpa [Json.Quoted.quote] using @Json.Quoted.unquote?_of_space between _ hclosed
          rw [hliteral, hnone] at hreads
          cases hreads
  obtain ⟨rfl, rfl⟩ := hsame
  have hreads := hline.reads
  rw [Json.Quoted.unquote?_quote] at hreads
  obtain rfl := Option.some.inj hreads
  exact ⟨hline, rfl⟩

/-! ### Blocks -/

/-- A line of a block. -/
def padded (column : Nat) (line : List Char) : List Char :=
  if line.isEmpty then [] else List.replicate column ' ' ++ line

theorem drop_padded (column : Nat) (line : List Char) :
    (padded column line).drop column = line := by
  unfold padded
  split
  next h => rw [List.drop_nil, List.isEmpty_iff.1 h]
  next => exact List.drop_left' List.length_replicate

theorem intercalate_eq_flatMap (first : List Char) (further : List (List Char)) :
    ['\n'].intercalate (first :: further) = first ++ further.flatMap ('\n' :: ·) := by
  induction further generalizing first with
  | nil => simp
  | cons line further ih =>
    rw [List.intercalate_cons_cons, ih, List.flatMap_cons, List.append_assoc]
    rfl

theorem blockOf_eq (before : List Char) (column : Nat) (script : List Char) :
    blockOf before column script =
      ['\n'].intercalate ((before ++ ['|', '-']) :: (lines script).map (padded column)) := by
  rw [intercalate_eq_flatMap, List.flatMap_map, blockOf]
  congr 2
  funext line
  unfold padded
  split
  · rfl
  · exact List.cons_append

/-- The last line ends in the last character. -/
theorem exists_lines_concat (text : List Char) {c : Char} (hc : c ≠ '\n') :
    ∃ init last, lines (text ++ [c]) = init ++ [last ++ [c]] := by
  induction text with
  | nil => exact ⟨[], [], by simp [lines, hc]⟩
  | cons d text ih =>
    obtain ⟨init, last, hlines⟩ := ih
    rw [List.cons_append, lines, hlines]
    split
    · exact ⟨[] :: init, last, rfl⟩
    · cases init with
      | nil => exact ⟨[], d :: last, rfl⟩
      | cons l init => exact ⟨(d :: l) :: init, last, rfl⟩

/-- A literal block that stands for a script: behind the line with the mark of the block stand lines
that are empty or padded, of which the last one is not empty, and without the padding they are the
script. -/
structure IsBlock (before : List Char) (column : Nat) (script block : List Char)
    (further : List (List Char)) : Prop where
  text : block = ['\n'].intercalate ((before ++ ['|', '-']) :: further)
  padded : ∀ line ∈ further, '\n' ∉ line ∧ (line = [] ∨ List.replicate column ' ' <+: line)
  ends : ∃ line, further.getLast? = some line ∧ line ≠ []
  reads : ['\n'].intercalate (further.map (List.drop column)) = script

/-- The lines of a block are told apart by its line feeds, if it begins on one line. -/
theorem IsBlock.lines_eq {before script block : List Char} {column : Nat}
    {further : List (List Char)} (h : IsBlock before column script block further)
    (hbefore : '\n' ∉ before) : lines block = (before ++ ['|', '-']) :: further := by
  rw [lines_eq_splitOn, h.text]
  refine List.splitOn_intercalate _ (fun line hline => ?_) (List.cons_ne_nil _ _)
  rcases List.mem_cons.1 hline with rfl | hline
  · simpa using hbefore
  · exact (h.padded line hline).1

theorem blockOf_isBlock (before : List Char) (column : Nat) {script : List Char}
    (h : closing <:+ script) :
    IsBlock before column script (blockOf before column script)
      ((lines script).map (padded column)) where
  text := blockOf_eq before column script
  padded line hline := by
    obtain ⟨l, hl, rfl⟩ := List.mem_map.1 hline
    unfold Script.padded
    split
    · exact ⟨List.not_mem_nil, .inl rfl⟩
    · refine ⟨?_, .inr (List.prefix_append _ l)⟩
      rw [List.mem_append, not_or]
      exact ⟨fun hmem => absurd (List.mem_replicate.1 hmem).2 (by decide), not_mem_of_mem_lines hl⟩
  ends := by
    obtain ⟨text, rfl⟩ := h
    obtain ⟨init, last, hlines⟩ := exists_lines_concat text (c := ')') (by decide)
    refine ⟨Script.padded column (last ++ [')']), ?_, ?_⟩
    · rw [closing, hlines, List.map_append, List.map_singleton, List.getLast?_concat]
    · simp [Script.padded]
  reads := by
    rw [List.map_map, show List.drop column ∘ Script.padded column = id from
      funext fun line => drop_padded column line, List.map_id, lines_eq_splitOn]
    exact List.intercalate_splitOn '\n'

/-! ### Texts -/

/-- A line that is no expandable one is copied. -/
theorem expandOne_eq_self {line : List Char} (indent : Nat)
    (h : ∀ before literal blanks script,
      ¬Expandable (cutEnd line).1 before literal blanks script) : expandOne indent line = line := by
  unfold expandOne
  dsimp only
  split
  next block hblock =>
    obtain ⟨before, literal, blanks, script, hline, -⟩ := expandLineChars_eq_some_iff.1 hblock
    exact absurd hline (h before literal blanks script)
  next => rfl

/-- The rewriting of lines as blocks can be read back. A quoted script that a block can hold, behind
nothing but dashes and a key, becomes a block that stands for the script and is indented more than
the key. Only a line of this kind becomes a block, with whatever quoted string reads as the script
and with blanks behind it; every other line of a text is copied. -/
theorem expandBlocks_reads_back (indent : Nat) (hindent : 1 ≤ indent) :
    (∀ before script : List Char, startsValue before = true →
      opening <+: script → closing <:+ script → (∀ c ∈ script, fitsBlock c = true) →
      ∃ block further,
        expandLine (String.ofList (before ++ Json.Quoted.quote script)) indent =
            some (String.ofList block) ∧
          IsBlock before (keyColumn before + indent) script block further ∧
          ('\n' ∉ before → lines block = (before ++ ['|', '-']) :: further) ∧
          before.length - (afterDashes before.length before).length < keyColumn before + indent) ∧
    (∀ line, (∃ block, expandLine line indent = some block) ↔
      ∃ before literal blanks script, Expandable line.toList before literal blanks script) ∧
    ∀ text, (expandBlocks text indent).toList =
        ((linesWithEnds text.toList).map (expandOne indent)).flatten ∧
      ∀ line ∈ linesWithEnds text.toList,
        (∀ before literal blanks script,
          ¬Expandable (cutEnd line).1 before literal blanks script) →
        expandOne indent line = line := by
  refine ⟨fun before script hstarts hopened hclosed hfits => ?_, fun line => ?_,
    fun text => ⟨?_, fun line _ hline => expandOne_eq_self indent hline⟩⟩
  · have hblock := blockOf_isBlock before (keyColumn before + indent) hclosed
    refine ⟨_, _, ?_, hblock, hblock.lines_eq, ?_⟩
    · rw [expandLine, String.toList_ofList, expandLineChars_quote hstarts hopened hclosed hfits,
        Option.map_some]
    · rw [← keyColumn_eq]
      omega
  · constructor
    · rintro ⟨block, hblock⟩
      obtain ⟨chars, hchars, -⟩ := Option.map_eq_some_iff.1 hblock
      obtain ⟨before, literal, blanks, script, hline, -⟩ := expandLineChars_eq_some_iff.1 hchars
      exact ⟨before, literal, blanks, script, hline⟩
    · rintro ⟨before, literal, blanks, script, hline⟩
      have hchars : expandLineChars line.toList indent =
          some (blockOf before (keyColumn before + indent) script) :=
        expandLineChars_eq_some_iff.2 ⟨before, literal, blanks, script, hline, rfl⟩
      exact ⟨_, congrArg (Option.map String.ofList) hchars⟩
  · rw [expandBlocks, String.toList_ofList, List.flatMap_def]

/-- What stands in front of a field of an item of an item. -/
def nestedKey : List Char := "- - on error: ".toList

/-- A script with quotes, a backslash, the mark of a script, a blank line and a tabulator. -/
def quotingScript : List Char := "js(x = \"js(\\n\";\n\n\ty)".toList

theorem quotingScript_reads_back :
    startsValue nestedKey = true ∧ opening <+: quotingScript ∧ closing <:+ quotingScript ∧
      (∀ c ∈ quotingScript, fitsBlock c = true) ∧
      ∃ block further,
        expandLine (String.ofList (nestedKey ++ Json.Quoted.quote quotingScript)) 2 =
            some (String.ofList block) ∧
          IsBlock nestedKey 6 quotingScript block further ∧
          lines block = "- - on error: |-".toList :: further ∧
          nestedKey.length - (afterDashes nestedKey.length nestedKey).length < 6 := by
  have hstarts : startsValue nestedKey = true := by decide +kernel
  have hopened : opening <+: quotingScript := by decide +kernel
  have hclosed : closing <:+ quotingScript := by decide +kernel
  have hfits : ∀ c ∈ quotingScript, fitsBlock c = true :=
    List.all_iff_forall_prop.1 (by decide +kernel)
  have hcolumn : keyColumn nestedKey + 2 = 6 := by decide +kernel
  obtain ⟨block, further, hline, hblock, hlines, hdeeper⟩ :=
    (expandBlocks_reads_back 2 (by decide)).1 nestedKey quotingScript hstarts hopened hclosed hfits
  exact ⟨hstarts, hopened, hclosed, hfits, block, further, hline, hcolumn ▸ hblock,
    hlines (by decide +kernel), hcolumn ▸ hdeeper⟩

end Workflow.Script
