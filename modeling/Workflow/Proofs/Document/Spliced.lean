import Workflow.Proofs.Script.Block
import Workflow.Proofs.Yaml.Marked

/-!
# The scripts in the text of a document

The text of a document is the text of its value with the scripts put aside, in which every line with
a placeholder is written again with its script (`TextLine.Becomes`) and every other line is copied.
The placeholders stand in the text with the numbers from 0 on in their order, so each script is
written once and at its own place (`yamlText_splices`). A text that holds the start of a placeholder
could be taken for one; the theorem is about documents without such texts.
-/

namespace Workflow.Document

open Script (Free)

/-! ### Lines of a text -/

/-- A line of a text with the line feed that ends it; a placeholder ends its line. -/
inductive TextLine where
  | copied (text : List Char)
  | slot (before : List Char) (n : Nat)

namespace TextLine

/-- The text of a line. -/
def text : TextLine → List Char
  | copied text => text
  | slot before n => before ++ (placeholder n).toList ++ ['\n']

/-- The number of the placeholder in a line. -/
def number? : TextLine → Option Nat
  | copied _ => none
  | slot _ n => some n

/-- A line that shows at most one placeholder, behind a space. -/
inductive Fine : TextLine → Prop
  | copied {text : List Char} (h : Free placeholderStart text) : Fine (.copied text)
  | slot {front : List Char} {n : Nat} (h : Free placeholderStart (front ++ [' '])) :
      Fine (.slot (front ++ [' ']) n)

/-- What a line becomes when the scripts are written in place: a line without a placeholder is copied,
and a placeholder gives way to its script, quoted or as a block. -/
inductive Becomes (scripts : List String) (indent : Nat) : TextLine → List Char → Prop
  | copied {text : List Char} (h : Free placeholderStart text) :
      Becomes scripts indent (.copied text) text
  | quoted {before : List Char} {n : Nat} {script : String} (hscript : scripts[n]? = some script)
      (h : Script.expandLineChars (before ++ Json.quoted script) indent = none) :
      Becomes scripts indent (.slot before n) (before ++ Json.quoted script ++ ['\n'])
  | block {before block : List Char} {n : Nat} {script : String} (hscript : scripts[n]? = some script)
      (h : Script.expandLineChars (before ++ Json.quoted script) indent = some block)
      (hblock : block = Script.blockOf before (Script.keyColumn before + indent) script.toList) :
      Becomes scripts indent (.slot before n) (block ++ ['\n'])

end TextLine

/-- What stands on a line in front of a text without making it a placeholder. -/
structure Opens (front : List Char) : Prop where
  line : '\n' ∉ front
  free : ∀ text, Free placeholderStart text → Free placeholderStart (front ++ text)

theorem opens_nil : Opens [] := ⟨List.not_mem_nil, fun _ => id⟩

theorem Opens.append_cons {front text : List Char} {c : Char} (h : Opens front)
    (htext : Yaml.Clear text) (hc : c ∉ placeholderStart) (hline : c ≠ '\n') :
    Opens (front ++ text ++ [c]) where
  line := by
    rw [List.mem_append, List.mem_append, not_or, not_or]
    exact ⟨⟨h.line, htext.line⟩, fun hmem => hline (List.mem_singleton.1 hmem).symm⟩
  free more hmore := by
    rw [List.append_assoc, List.append_assoc]
    exact h.free _ (htext.free.append_cons hc hmore)

theorem ending_not_mem_placeholderStart {l : Yaml.Line} (h : l.Clear) : l.ending ∉ placeholderStart := by
  have hbreaks : ∀ c ∈ placeholderStart, Yaml.isBreak c = false :=
    List.all_iff_forall_prop.1 (by decide)
  intro hmem
  have hending := h.ending
  rw [hbreaks _ hmem] at hending
  cases hending

/-- A line of YAML that ends in another break than a line feed goes on in the text. -/
theorem exists_textLines {ls : List Yaml.Line} {ns : List Nat} (h : Yaml.Marked ls ns)
    {front : List Char} (hfront : Opens front) :
    ∃ parts : List TextLine,
      Script.linesWithEnds (front ++ ls.flatMap fun l => l.text ++ [l.ending]) =
          parts.map TextLine.text ∧
        parts.filterMap TextLine.number? = ns ∧ ∀ part ∈ parts, part.Fine := by
  induction h generalizing front with
  | nil =>
    have hfree := hfront.free [] (by decide)
    rw [List.append_nil] at hfree
    rw [List.flatMap_nil, List.append_nil]
    cases front with
    | nil => exact ⟨[], rfl, rfl, nofun⟩
    | cons c front =>
      refine ⟨[.copied (c :: front)], ?_, rfl, ?_⟩
      · exact Script.linesWithEnds_of_not_mem hfront.line (List.cons_ne_nil c front)
      · exact List.forall_mem_singleton.2 (.copied hfree)
  | @clear l ls ns hl _ ih =>
    rw [List.flatMap_cons, ← List.append_assoc, ← List.append_assoc]
    by_cases hending : l.ending = '\n'
    · obtain ⟨parts, hparts, hnumbers, hfine⟩ := ih opens_nil
      refine ⟨.copied (front ++ l.text ++ ['\n']) :: parts, ?_, hnumbers, ?_⟩
      · have hline : '\n' ∉ front ++ l.text := by
          rw [List.mem_append, not_or]
          exact ⟨hfront.line, hl.text.line⟩
        rw [hending, ← List.append_cons, Script.linesWithEnds_append hline]
        exact congrArg (_ :: ·) hparts
      · refine List.forall_mem_cons.2 ⟨.copied ?_, hfine⟩
        exact (hfront.free _ hl.text.free).append_cons (by decide) (by decide) (c := '\n')
    · exact ih (hfront.append_cons hl.text (ending_not_mem_placeholderStart hl) hending)
  | @slot head n ls ns hhead _ ih =>
    obtain ⟨before, hbefore, rfl⟩ := hhead
    obtain ⟨parts, hparts, hnumbers, hfine⟩ := ih opens_nil
    have hopens := hfront.append_cons hbefore (c := ' ') (by decide) (by decide)
    refine ⟨.slot (front ++ before ++ [' ']) n :: parts, ?_, congrArg (n :: ·) hnumbers, ?_⟩
    · have hline : '\n' ∉ front ++ before ++ [' '] ++ (placeholder n).toList := by
        rw [List.mem_append, not_or]
        exact ⟨hopens.line, fun hmem => absurd (Yaml.isWordChar_placeholder hmem) (by decide)⟩
      have hlines := Script.linesWithEnds_append hline (ls.flatMap fun l => l.text ++ [l.ending])
      rw [List.flatMap_cons, List.map_cons, ← hparts, List.nil_append]
      simpa [Yaml.Line.of, TextLine.text] using hlines
    · have hfree := hopens.free [] (by decide)
      rw [List.append_nil] at hfree
      exact List.forall_mem_cons.2 ⟨.slot hfree, hfine⟩

/-! ### Splicing -/

variable {scripts : List String} {indent : Nat}

theorem spliceLine_of_free {line : List Char} (h : Free placeholderStart line) :
    spliceLine scripts indent line = line := by
  have hnone : findScript? scripts line = none := by
    rw [findScript?, Script.splitAt?_eq_none_of_free h]
    rfl
  rw [spliceLine, hnone]

/-- The placeholder in a line is found, and its number is read. -/
theorem findScript?_slot {front : List Char} {n : Nat} {script : String}
    (h : Free placeholderStart (front ++ [' '])) (hscript : scripts[n]? = some script) :
    findScript? scripts (front ++ [' '] ++ (placeholder n).toList ++ ['\n']) =
      some (front ++ [' '], script, ['\n']) := by
  have hstart := Script.splitAt?_of_free (c := ' ') (by decide) h
    (Nat.toDigits 10 n ++ (placeholderEnd ++ ['\n']))
  have hend : Script.splitAt? placeholderEnd
      (Nat.toDigits 10 n ++ (placeholderEnd ++ ['\n'])) =
        some (Nat.toDigits 10 n, placeholderEnd ++ ['\n']) :=
    Script.splitAt?_of_not_mem Nat.underscore_not_in_toDigits ['_'] ['\n']
  have hline : front ++ [' '] ++ (placeholder n).toList ++ ['\n'] =
      front ++ [' '] ++ (placeholderStart ++ (Nat.toDigits 10 n ++ (placeholderEnd ++ ['\n']))) := by
    simp [toList_placeholder]
  rw [hline, findScript?, hstart]
  simp only [Option.bind_eq_bind, Option.bind_some, List.drop_left, hend, scriptNumber?_toDigits,
    hscript]
  rfl

theorem becomes_spliceLine {part : TextLine} (h : part.Fine)
    (hnumber : ∀ n ∈ part.number?, n < scripts.length) :
    part.Becomes scripts indent (spliceLine scripts indent part.text) := by
  cases h with
  | copied h =>
    rw [TextLine.text, spliceLine_of_free h]
    exact .copied h
  | @slot front n h =>
    obtain ⟨script, hscript⟩ : ∃ script, scripts[n]? = some script :=
      ⟨_, List.getElem?_eq_getElem (hnumber n rfl)⟩
    have hcut : Script.cutEnd (front ++ [' '] ++ Json.quoted script ++ ['\n']) =
        (front ++ [' '] ++ Json.quoted script, ['\n']) := by
      rw [Script.cutEnd, Script.beforeEnd?_append]
    rw [TextLine.text, spliceLine, findScript?_slot h hscript]
    dsimp only
    rw [Script.expandOne, hcut]
    dsimp only
    cases hblock : Script.expandLineChars (front ++ [' '] ++ Json.quoted script) indent with
    | none => exact .quoted hscript hblock
    | some block => exact .block hscript hblock (Script.expandable_of_quote hblock).2

/-! ### Documents -/

theorem holds_numbered {texts : List String} (h : Yaml.AllFree texts) (n : Nat) :
    Yaml.Holds (numbered n texts) (List.range' n (texts.filter Script.isWrapped).length) := by
  induction texts generalizing n with
  | nil => exact .nil
  | cons text texts ih =>
    obtain ⟨htext, hrest⟩ := List.forall_mem_cons.1 h
    rw [numbered, List.filter_cons]
    split
    next => exact .placeholder (ih hrest (n + 1))
    next => exact .text htext (ih hrest n)

/-- A value with its scripts put aside: they were replaced in their order and nothing else was, and
writing them for their placeholders gives the value back. -/
structure PutAside (v masked : Json) (scripts : List String) : Prop where
  replaced : Replaced 0 v.strings masked.strings scripts
  keys : masked.keys = v.keys
  restored : masked.mapStrings (restore scripts) = v

theorem leaves_restore {texts : List String} (h : Yaml.AllFree texts) (scripts : List String) :
    ∀ text ∈ texts, restore scripts text = text := fun text ht => restore_of_free scripts (h text ht)

theorem stash_putAside {v : Json} (h : Yaml.AllFree v.strings) :
    PutAside v (stash 0 v).1 (stash 0 v).2 where
  replaced := stash_replaced 0 v
  keys := stash_keys 0 v
  restored := stash_restored 0 v (supplies_restore _) fun text ht _ => leaves_restore h _ text ht

/-- The fields of the value of a document, with the scripts of the states put aside. -/
theorem exists_stashed (d : Document) : ∃ (fields : Fields) (states : Json),
    d.toJson.merged = .obj fields ∧ fields.get? "states" = some states ∧
      states = (Json.arr (d.states.map State.toJson)).merged ∧
      d.stashed = (.obj (fields.insert "states" (stash 0 states).1), (stash 0 states).2) := by
  obtain ⟨fields, hmerged, hstates⟩ : ∃ fields : Fields, d.toJson.merged = .obj fields ∧
      fields.get? "states" = some (Json.arr (d.states.map State.toJson)).merged := by
    refine ⟨_, rfl, ?_⟩
    rw [entries, Json.mergedFields_append, Json.mergedFields, Json.mergedFields]
    exact Fields.get?_insert_self _ _ _
  refine ⟨fields, _, hmerged, hstates, rfl, ?_⟩
  rw [Document.stashed, hmerged]
  dsimp only
  rw [hstates]

/-- The strings of a record with the scripts of one field put aside: the placeholders stand in their
order, and writing the scripts for them gives the record back. -/
theorem holds_stashed {fields : Fields} {states : Json} (hstates : fields.get? "states" = some states)
    (hstrings : Yaml.AllFree (Json.obj fields).strings) (hkeys : Yaml.AllFree (Json.obj fields).keys) :
    PutAside states (stash 0 states).1 (stash 0 states).2 ∧
      Yaml.Holds (Json.obj (fields.insert "states" (stash 0 states).1)).strings
        (List.range (stash 0 states).2.length) ∧
      Yaml.AllFree (Json.obj (fields.insert "states" (stash 0 states).1)).keys ∧
      (Json.obj (fields.insert "states" (stash 0 states).1)).mapStrings (restore (stash 0 states).2) =
        .obj fields := by
  obtain ⟨front, back, hfields, hinsert⟩ := Fields.exists_around hstates
  have hfixed := leaves_restore hstrings (stash 0 states).2
  rw [hfields, Json.strings_around] at hstrings hfixed
  obtain ⟨hfront, hrest⟩ := hstrings.split
  obtain ⟨hown, hback⟩ := hrest.split
  have haside := stash_putAside hown
  refine ⟨haside, ?_, ?_, ?_⟩
  · have hslots := holds_numbered hown 0
    rw [← haside.replaced.texts, ← haside.replaced.scripts, ← List.range_eq_range'] at hslots
    have hall := (Yaml.Holds.of_free hfront).append (hslots.append (Yaml.Holds.of_free hback))
    rwa [hinsert, Json.strings_around, ← List.append_nil (List.range _)]
  · rw [hfields, Json.keys_around] at hkeys
    rwa [hinsert, Json.keys_around, haside.keys]
  · -- The fields around the states hold no placeholder.
    have hfirst := Json.mapFieldStrings_of_fixed front fun text ht =>
      hfixed text (List.mem_append_left _ ht)
    have hlast := Json.mapFieldStrings_of_fixed back fun text ht =>
      hfixed text (List.mem_append_right _ (List.mem_append_right _ ht))
    rw [hinsert, hfields, Json.mapStrings, Json.mapFieldStrings_append, Json.mapFieldStrings,
      haside.restored, hfirst, hlast]

/-- No text of the fields holds the start of a placeholder when none of the document does. -/
theorem allFree_merged {d : Document} {fields : Fields} (hmerged : d.toJson.merged = .obj fields)
    (hfree : Yaml.AllFree (d.toJson.strings ++ d.toJson.keys)) :
    Yaml.AllFree (Json.obj fields).strings ∧ Yaml.AllFree (Json.obj fields).keys :=
  ⟨fun text ht => hfree text (List.mem_append_left _ (Json.gather_merged_subset d.toJson (hmerged ▸ ht))),
    fun text ht => hfree text (List.mem_append_right _ (Json.gather_merged_subset d.toJson (hmerged ▸ ht)))⟩

/-- Every script of the states is written once and at its own place. The scripts are put aside, each
behind the placeholder with its number; the lines of the text show the placeholders in the order of
their numbers, each becomes its script, and every other line is copied. -/
theorem yamlText_splices (d : Document) (indent : Nat)
    (hfree : ∀ text ∈ d.toJson.strings ++ d.toJson.keys, Free placeholderStart text.toList) :
    ∃ (fields : Fields) (states masked : Json) (scripts : List String),
      d.toJson.merged = .obj fields ∧ fields.get? "states" = some states ∧
      states = (Json.arr (d.states.map State.toJson)).merged ∧
      stash 0 states = (masked, scripts) ∧
      d.stashed = (.obj (fields.insert "states" masked), scripts) ∧
      PutAside states masked scripts ∧
      (Json.obj (fields.insert "states" masked)).mapStrings (restore scripts) = .obj fields ∧
      ∃ (parts : List TextLine) (outputs : List (List Char)),
        Script.linesWithEnds (Yaml.print (.obj (fields.insert "states" masked))).toList =
            parts.map TextLine.text ∧
          parts.filterMap TextLine.number? = List.range scripts.length ∧
          List.Forall₂ (TextLine.Becomes scripts indent) parts outputs ∧
          (d.yamlText indent).toList = outputs.flatten := by
  obtain ⟨fields, states, hmerged, hstates, hown, hstashed⟩ := d.exists_stashed
  obtain ⟨hstrings, hkeys⟩ := allFree_merged hmerged hfree
  obtain ⟨haside, hholds, hkept, hrestored⟩ := holds_stashed hstates hstrings hkeys
  have hmarked := Yaml.marked_document (v := .obj (Fields.insert fields "states" (stash 0 states).1))
    nofun hholds hkept
  obtain ⟨parts, hparts, hnumbers, hfine⟩ := exists_textLines hmarked opens_nil
  refine ⟨fields, states, _, _, hmerged, hstates, hown, rfl, hstashed, haside, hrestored, parts,
    parts.map fun part => spliceLine (stash 0 states).2 indent part.text, ?_, hnumbers, ?_, ?_⟩
  · rw [Yaml.print, String.toList_ofList]
    exact hparts
  · rw [List.forall₂_map_right_iff, List.forall₂_same]
    intro part hpart
    refine becomes_spliceLine (hfine part hpart) fun n hn => ?_
    have hmem : n ∈ parts.filterMap TextLine.number? := List.mem_filterMap.2 ⟨part, hpart, hn⟩
    rw [hnumbers] at hmem
    exact List.mem_range.1 hmem
  · rw [yamlText, hstashed]
    dsimp only
    rw [String.toList_ofList, Yaml.print, String.toList_ofList]
    rw [List.nil_append] at hparts
    rw [hparts, List.flatMap_map, List.flatMap_def]

/-- A document with a dozen scripts in nested lists and records, of which one fits no block, and with
strings that hold scripts without being one. -/
def dozenScripts : Document where
  extra := [("note", .str "js(kept)"), ("states", .null)]
  functions := none
  start := none
  states := (List.range 6).map fun n =>
    { id := "s"
      kind := "switch"
      fields := [
        ("conditions", .arr [.obj [("condition", .str "js(a\n\n\"b\")"), ("label", .str "it's")]]),
        ("query", .str (if n = 3 then "js(a\r\nb)" else "js(\\)")),
        ("data", .obj [("text", .str ".a + \"js(x\"\n")])]
      handlers := none }

theorem dozenScripts_spliced :
    (∀ text ∈ dozenScripts.toJson.strings ++ dozenScripts.toJson.keys,
        Free placeholderStart text.toList) ∧
      dozenScripts.stashed.2.length = 12 ∧
      ∃ (parts : List TextLine) (outputs : List (List Char)),
        parts.filterMap TextLine.number? = List.range 12 ∧
          List.Forall₂ (TextLine.Becomes dozenScripts.stashed.2 2) parts outputs ∧
          (dozenScripts.yamlText 2).toList = outputs.flatten := by
  have hfree : ∀ text ∈ dozenScripts.toJson.strings ++ dozenScripts.toJson.keys,
      Free placeholderStart text.toList := by decide +kernel
  have hlength : dozenScripts.stashed.2.length = 12 := by decide +kernel
  obtain ⟨fields, states, masked, scripts, -, -, -, -, hstashed, -, -, parts, outputs, -, hnumbers,
    hbecomes, htext⟩ := yamlText_splices dozenScripts 2 hfree
  have hscripts : dozenScripts.stashed.2 = scripts := congrArg Prod.snd hstashed
  rw [← hscripts, hlength] at hnumbers
  exact ⟨hfree, hlength, parts, outputs, hnumbers, hscripts ▸ hbecomes, htext⟩

end Workflow.Document
