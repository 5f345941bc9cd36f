import Workflow.Proofs.Document.Spliced
import Workflow.Proofs.Yaml.Scalars

/-!
# Scripts in YAML text

What a placeholder becomes is read as its script: a string in JSON's quotes (`written_jsonQuoted`), and a
block below its key (`IsScript.blockOf_eq`). A script is `IsSafe` when YAML reads every character
that JSON leaves unescaped as itself.
-/

namespace Workflow.Document

open Script (keyColumn)
open Yaml (Atom Written isAllowed isBreak joined splitLines)

/-! ### Quoted scripts -/

/-- A character that JSON escapes, or that YAML reads as itself between quotes. -/
def IsSafe (ch : Char) : Prop := ch.toNat < 0x20 ∨ isAllowed ch = true ∧ isBreak ch = false

instance (ch : Char) : Decidable (IsSafe ch) := inferInstanceAs (Decidable (_ ∨ _))

-- A search among all characters would decide it as well.
instance (text : List Char) : Decidable (∀ ch ∈ text, IsSafe ch) := List.decidableBAll IsSafe text

theorem isAllowed_jsonEscape {ch : Char} (h : IsSafe ch) :
    ∀ d ∈ Json.Quoted.escape ch, isAllowed d = true := by
  have hdigits : ∀ n < 16, isAllowed (Json.Quoted.hexDigit n) = true := by decide
  unfold Json.Quoted.escape
  split
  case h_8 =>
    split
    next hlt =>
      have hhigh := hdigits (ch.toNat / 16) (by omega)
      have hlow := hdigits (ch.toNat % 16) (by omega)
      have hfront : ∀ d ∈ ['\\', 'u', '0', '0'], isAllowed d = true :=
        List.all_iff_forall_prop.1 (by decide)
      exact List.forall_mem_append.2 (⟨hfront, by simp [hhigh, hlow]⟩ :
        (∀ d ∈ ['\\', 'u', '0', '0'], _) ∧
          ∀ d ∈ [Json.Quoted.hexDigit (ch.toNat / 16), Json.Quoted.hexDigit (ch.toNat % 16)], _)
    next hge => exact List.forall_mem_singleton.2 (h.resolve_left hge).1
  all_goals exact List.all_iff_forall_prop.1 (by decide)

theorem not_isRawBlank {ch : Char} (h : IsSafe ch) (hne : ch ≠ ' ') :
    Yaml.Text.isRawBlank ch = false := by
  simp only [Yaml.Text.isRawBlank, Bool.or_eq_false_iff, decide_eq_false_iff_not]
  refine ⟨⟨⟨hne, ?_⟩, ?_⟩, ?_⟩ <;>
  · rintro rfl
    revert h
    decide

theorem written_jsonQuoted {column : Nat} {s : String} (h : ∀ ch ∈ s.toList, IsSafe ch) :
    Written column (Json.quoted s ++ ['\n']) (.scalar false s) (.str s) := by
  have hrow := Yaml.quoted_spelledRow
    fun ch hch hne => Yaml.Text.spells_jsonQuoted (not_isRawBlank (h ch hch) hne)
  have hwritten : Yaml.Text.Piece.writtenAll (Yaml.spelledRow Json.Quoted.escape s.toList) =
      s.toList.flatMap Json.Quoted.escape := Yaml.writtenAll_spelledRow rfl s.toList
  have hquoted := Yaml.written_quoted column hrow (by
    rw [hwritten]
    exact List.forall_mem_flatMap.2 fun ch hch => isAllowed_jsonEscape (h ch hch))
  rw [Yaml.Lexer.quoted, hwritten, String.ofList_toList] at hquoted
  exact hquoted

/-! ### Scripts as blocks -/

theorem isBreak_of_fitsBlock {ch : Char} (h : Script.fitsBlock ch = true) (hbreak : isBreak ch = true) :
    ch = '\n' := by
  simp only [isBreak, Bool.or_eq_true, decide_eq_true_eq] at hbreak
  rcases hbreak with (((hfeed | rfl) | rfl) | rfl) | rfl
  · exact hfeed
  all_goals exact absurd h (by decide)

/-- The lines of a text whose only breaks are line feeds, none of them at its end. -/
theorem splitLines_eq_lines {acc text : List Char} (hne : acc ++ text ≠ [])
    (hbreaks : ∀ ch ∈ text, isBreak ch = true → ch = '\n') (hlast : text.getLast? ≠ some '\n') :
    ∃ l ls, Script.lines text = l :: ls ∧
      splitLines.go acc text = .of (acc.reverse ++ l) :: ls.map Yaml.Line.of := by
  induction text generalizing acc with
  | nil =>
    rw [List.append_nil] at hne
    exact ⟨[], [], rfl, by simp [splitLines.go, hne]⟩
  | cons ch text ih =>
    have hrest := fun d hd => hbreaks d (List.mem_cons_of_mem ch hd)
    have hlast' : text.getLast? ≠ some '\n' := Yaml.getLast?_ne_of_cons hlast
    rw [splitLines.go, Script.lines]
    by_cases hch : ch = '\n'
    · subst hch
      have htext : text ≠ [] := by
        rintro rfl
        exact hlast rfl
      obtain ⟨l, ls, hlines, hsplit⟩ := @ih [] htext hrest hlast'
      exact ⟨[], l :: ls, by simp [hlines], by simp [hsplit, Yaml.isBreak_lineFeed, Yaml.Line.of]⟩
    · have hbreak : isBreak ch = false :=
        Bool.eq_false_iff.2 fun hbreak => hch (hbreaks ch List.mem_cons_self hbreak)
      obtain ⟨l, ls, hlines, hsplit⟩ := @ih (ch :: acc) (List.cons_ne_nil _ _) hrest hlast'
      exact ⟨ch :: l, ls, by simp [hch, hlines], by simp [hbreak, hsplit]⟩

/-- Line feeds in front of lines are line feeds behind them, but for the first and the last one. -/
theorem flatMap_lineFeed (f : List Char → List Char) (ls : List (List Char)) :
    (ls.flatMap fun l => '\n' :: f l) ++ ['\n'] = '\n' :: ls.flatMap fun l => f l ++ ['\n'] := by
  induction ls with
  | nil => rfl
  | cons l ls ih => simp [ih]

/-- A script that fits a block. -/
structure IsScript (script : List Char) : Prop where
  opened : Script.opening <+: script
  closed : Script.closing <:+ script
  fits : ∀ ch ∈ script, Script.fitsBlock ch = true
  safe : ∀ ch ∈ script, IsSafe ch

namespace IsScript

variable {script : List Char}

theorem inBlock (h : IsScript script) : Yaml.InBlock script := by
  obtain ⟨⟨more, rfl⟩, -, hfits, hsafe⟩ := h
  refine ⟨by simp [Script.opening], fun ch hch hbreak => .inl (isBreak_of_fitsBlock (hfits ch hch) hbreak),
    by simp [Script.opening], fun ch hch => ?_⟩
  rcases hsafe ch hch with hlow | hallowed
  · have hcontrol : ∀ n < 0x20, Script.fitsBlock (Char.ofNat n) = true →
        isAllowed (Char.ofNat n) = true := by decide
    have hch' := hcontrol ch.toNat hlow
    rw [Char.ofNat_toNat] at hch'
    exact hch' (hfits ch hch)
  · exact hallowed.1

theorem getLast? (h : IsScript script) : script.getLast? = some ')' := by
  obtain ⟨text, rfl⟩ := h.closed
  exact List.getLast?_concat

theorem hintOf_eq (h : IsScript script) : Yaml.hintOf script = false := by
  obtain ⟨more, rfl⟩ := h.opened
  rfl

/-- The block of a script is the literal block of its text. -/
theorem blockOf_eq (h : IsScript script) (before : List Char) (column : Nat) :
    Script.blockOf before column script ++ ['\n'] = before ++ Yaml.literalText column script := by
  have hchomp : Yaml.chompOf script = .strip := by
    rw [Yaml.chompOf, h.getLast?]
    rfl
  obtain ⟨l, ls, hlines, hsplit⟩ := @splitLines_eq_lines [] script h.inBlock.ne_nil
    (fun ch hch => isBreak_of_fitsBlock (h.fits ch hch)) (by rw [h.getLast?]; decide)
  have hbody : Yaml.Text.bodyAt column (splitLines script) =
      (Script.lines script).flatMap fun l => Script.padded column l ++ ['\n'] := by
    have hlist : splitLines script = (Script.lines script).map Yaml.Line.of := by
      rw [hlines]
      exact hsplit
    rw [hlist, Yaml.Text.bodyAt, List.flatMap_map]
    congr 1
    funext l
    unfold Yaml.Line.indent Script.padded Yaml.Line.of
    split <;> simp_all
  have hblock : Script.blockOf before column script =
      before ++ ['|', '-'] ++ (Script.lines script).flatMap fun l => '\n' :: Script.padded column l := by
    rw [Script.blockOf]
    congr 2
    funext l
    unfold Script.padded
    split <;> simp
  rw [hblock, List.append_assoc, flatMap_lineFeed, Yaml.literalText, Yaml.Lexer.literal, h.hintOf_eq, hchomp,
    hbody]
  simp [Yaml.Text.headOf, Yaml.Text.Chomp.mark]

end IsScript

/-- What a placeholder becomes is read as its script. -/
theorem exists_written_script {scripts : List String} {indent column : Nat} {front output : List Char}
    {n : Nat} {script : String} (hindent : 0 < indent) (hscript : scripts[n]? = some script)
    (hsafe : ∀ ch ∈ script.toList, IsSafe ch)
    (hcolumn : Script.startsValue (front ++ [' ']) = true → column ≤ keyColumn (front ++ [' ']))
    (h : TextLine.Becomes scripts indent (.slot (front ++ [' ']) n) output) :
    ∃ written, output = front ++ [' '] ++ written ∧
      Written column written (.scalar false script) (.str script) := by
  cases h with
  | @quoted _ _ script' hscript' _ =>
    obtain rfl : script = script' := Option.some.inj (hscript.symm.trans hscript')
    exact ⟨Json.quoted script ++ ['\n'], List.append_assoc .., written_jsonQuoted hsafe⟩
  | @block _ block _ script' hscript' hblock heq =>
    obtain rfl : script = script' := Option.some.inj (hscript.symm.trans hscript')
    have hline := (Script.expandable_of_quote hblock).1
    have his : IsScript script.toList := ⟨hline.opened, hline.closed, hline.fits, hsafe⟩
    have hhint : Yaml.hintOf script.toList = false := his.hintOf_eq
    have hlt := Nat.lt_of_le_of_lt (hcolumn hline.starts) (Nat.lt_add_of_pos_right hindent)
    have hwritten := Yaml.written_block his.inBlock hlt (by simp [hhint]) fun ch hch hbreak => by
      rw [his.getLast?] at hch
      obtain rfl := Option.some.inj hch
      cases hbreak
    rw [String.ofList_toList] at hwritten
    exact ⟨_, by rw [heq, his.blockOf_eq], hwritten⟩

end Workflow.Document
