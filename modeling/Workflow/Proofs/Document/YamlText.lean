import Workflow.Proofs.Document.Entries
import Workflow.Proofs.Document.Laid
import Workflow.Proofs.Document.ReadBack
import Workflow.Proofs.Yaml.Holds

/-!
# Reading back the YAML text of a document

With its scripts in place the YAML text of a document is the text of a layout of the document, and what
is read from it is the document again (`ofYamlText_yamlText_iff`). Not every document has such a text:
a script that no block can hold is written in the quotes of JSON, which keep characters that YAML reads
as something else; a text can be taken for a placeholder; and a string that ends in a separator does not
end its line, so that the script behind it is indented too little. `YamlLegible` is the condition under
which none of this happens, and `texts_needed` has a document for each part of it.
-/

namespace Workflow.Document

open Script (Free)

/-- What the YAML text of a document needs to be read back. -/
structure YamlLegible (d : Document) : Prop where
  /-- No text of the document holds the start of a placeholder. -/
  free : ∀ text ∈ d.toJson.strings ++ d.toJson.keys, Free placeholderStart text.toList
  /-- The texts around the scripts end their lines. -/
  ends : ∀ text ∈ d.stashed.1.strings ++ d.stashed.1.keys, Yaml.EndsBlock text.toList
  scripts : ∀ script ∈ d.stashed.2, ∀ ch ∈ script.toList, IsSafe ch
  numbers : ∀ n ∈ d.stashed.1.numbers, Yaml.ReadsBack n
  depth : d.toJson.depth ≤ Yaml.Node.heightLimit

instance (d : Document) : Decidable d.YamlLegible :=
  decidable_of_iff ((∀ text ∈ d.toJson.strings ++ d.toJson.keys, Free placeholderStart text.toList) ∧
      (∀ text ∈ d.stashed.1.strings ++ d.stashed.1.keys, Yaml.EndsBlock text.toList) ∧
      (∀ script ∈ d.stashed.2, ∀ ch ∈ script.toList, IsSafe ch) ∧
      (∀ n ∈ d.stashed.1.numbers, Yaml.ReadsBack n) ∧ d.toJson.depth ≤ Yaml.Node.heightLimit)
    ⟨fun ⟨hfree, hends, hscripts, hnumbers, hdepth⟩ => ⟨hfree, hends, hscripts, hnumbers, hdepth⟩,
      fun ⟨hfree, hends, hscripts, hnumbers, hdepth⟩ => ⟨hfree, hends, hscripts, hnumbers, hdepth⟩⟩

theorem mem_of_holds {texts : List String} {ns : List Nat} (h : Yaml.Holds texts ns) :
    ∀ text ∈ texts, Free placeholderStart text.toList ∨ ∃ n ∈ ns, text = placeholder n := by
  induction h with
  | nil => nofun
  | text htext _ ih => exact List.forall_mem_cons.2 ⟨.inl htext, ih⟩
  | @placeholder n texts ns _ ih =>
    refine List.forall_mem_cons.2 ⟨.inr ⟨n, List.mem_cons_self, rfl⟩, fun text ht => ?_⟩
    exact (ih text ht).imp_right fun ⟨m, hm, heq⟩ => ⟨m, List.mem_cons_of_mem n hm, heq⟩

/-- The value that is written for a document, with what its scripts become. -/
theorem YamlLegible.exists_fields {d : Document} (h : d.YamlLegible) : ∃ e fields,
    d.stashed.1 = .obj (e :: fields) ∧
      d.stashed.1.mapStrings (restore d.stashed.2) = d.toJson.merged ∧
      Readable d.stashed.2 d.stashed.1.strings d.stashed.1.keys d.stashed.1.numbers := by
  obtain ⟨fields, states, hmerged, hstates, -, hstashed⟩ := d.exists_stashed
  obtain ⟨hstrings, hkeys⟩ := allFree_merged hmerged h.free
  obtain ⟨-, hholds, hkept, hrestored⟩ := holds_stashed hstates hstrings hkeys
  have hends := h.ends
  have hscripts := h.scripts
  have hnumbers := h.numbers
  rw [hstashed] at hends hscripts hnumbers ⊢
  obtain ⟨e, rest, hcons⟩ : ∃ e rest, fields.insert "states" (stash 0 states).1 = e :: rest := by
    obtain ⟨front, back, -, hinsert⟩ := Fields.exists_around hstates
    rw [hinsert]
    cases front <;> exact ⟨_, _, rfl⟩
  rw [List.forall_mem_append] at hends
  refine ⟨e, rest, congrArg Json.obj hcons, hrestored.trans hmerged.symm, fun text ht => ?_,
    fun key hk => ⟨hkept key hk, hends.2 key hk⟩, hnumbers⟩
  rcases mem_of_holds hholds text ht with hfree | ⟨n, hn, rfl⟩
  · exact .inl ⟨hfree, hends.1 text ht⟩
  · have hscript := List.getElem?_eq_getElem (List.mem_range.1 hn)
    exact .inr ⟨n, _, rfl, hscript, hscripts _ (List.getElem_mem _)⟩

theorem behind_nil_zero (ls : List Yaml.Line) : Yaml.behind [] 0 ls = ls := by
  cases ls with
  | nil => rfl
  | cons l ls => rw [Yaml.behind, Yaml.map_indent_zero, List.nil_append]

theorem yamlText_eq (d : Document) (indent : Nat) : d.yamlText indent =
    String.ofList (spliced d.stashed.2 indent (Yaml.print d.stashed.1).toList) := rfl

/-- The YAML text of a document is read back as that document exactly when the document is well formed. -/
theorem ofYamlText_yamlText_iff {d : Document} (h : d.YamlLegible) {indent : Nat} (hindent : 0 < indent) :
    ofYamlText (d.yamlText indent) = .ok d ↔ d.WellFormed := by
  refine ⟨wellFormed_of_yaml, fun hw => ?_⟩
  obtain ⟨e, fields, hvalue, hrestored, hreadable⟩ := h.exists_fields
  rw [Json.merged_of_keyed (keyed_toJson hw), hvalue] at hrestored
  rw [hvalue] at hreadable
  obtain ⟨ls, hne, hfit, hmean, -, hcomes⟩ := laid hindent _ hreadable 0 [] (front_spaces 0)
  have hmeans : (Yaml.Layout.record ls).Means d.toJson := by
    rw [← hrestored]
    exact ⟨_, _, rfl, hmean⟩
  obtain ⟨n, hn, hnode⟩ := Yaml.Layout.exists_ofText? (l := .record ls) ⟨hne, hfit⟩ hmeans nofun
    hcomes.allowed h.depth
  have htext : d.yamlText indent = String.ofList ((Yaml.Layout.record ls).text 0) := by
    have hspliced := hcomes.spliced
    rw [behind_nil_zero] at hspliced
    rw [yamlText_eq, hvalue, Yaml.print, String.toList_ofList]
    exact congrArg String.ofList hspliced
  have hread : read (Yaml.Part.root n) = .ok d := read_of_holds hw hnode
  rw [ofYamlText, htext, Yaml.readText, hn]
  simp only [Option.getD_some, hread]

/-- A document with scripts as blocks and between quotes, and with strings and keys in every style. -/
def scripted : Document where
  extra := [("note", .str "js(kept)"), ("it's: 1", .arr [.arr [], .obj [("", .null)], .num (.int (-7))])]
  functions := none
  start := some ⟨some .scheduled, none, [("cron", .str "@daily")]⟩
  states := [
    { id := "007"
      kind := "switch"
      fields := [
        ("conditions", .arr [.obj [("condition", .str "js(a\n\n\tb)"), ("label", .str " x\u2028")]]),
        ("a\nb", .arr [.str "js(\r)", .str "\n c\n\n"]),
        ("tail", .str "js(x)")]
      handlers := none }]

theorem scripted_reads_back : scripted.YamlLegible ∧ scripted.WellFormed ∧
    ofYamlText (scripted.yamlText 2) = .ok scripted := by
  have hlegible : scripted.YamlLegible := by decide +kernel
  have hw : scripted.WellFormed := by
    refine ⟨⟨by decide, by decide⟩, nofun, fun s hs => ?_, List.forall_mem_singleton.2 ⟨?_, nofun⟩⟩
    · obtain rfl := Option.some.inj hs
      exact ⟨by decide, by decide⟩
    · exact ⟨by decide, by decide⟩
  exact ⟨hlegible, hw, (ofYamlText_yamlText_iff hlegible (by decide)).2 hw⟩

/-- A document with one state that has one field. -/
def oneField (key : String) (v : Json) : Document where
  extra := []
  functions := none
  start := none
  states := [⟨"a", "noop", [(key, v)], none⟩]

theorem wellFormed_oneField {key : String} {v : Json} (hkey : key ∉ ["id", "type", "catch"])
    (hv : v.Keyed) : (oneField key v).WellFormed where
  extra := ⟨trivial, nofun⟩
  functions := nofun
  start := nofun
  states := List.forall_mem_singleton.2
    ⟨⟨⟨List.not_mem_nil, hv, trivial⟩, List.forall_mem_singleton.2 hkey⟩, nofun⟩

/-- A key that looks like a placeholder, a string that ends in a separator in front of a script, and a
script with a line break that JSON does not escape. -/
theorem texts_needed :
    ∀ e ∈ [("__flowmap_script_0__", Json.str "js(y)"),
        ("f", .obj [("s", .str "x\n\u2028"), ("t", .str "js(y)")]), ("t", .str "js(\u0085)")],
      (oneField e.1 e.2).WellFormed ∧
        ofYamlText ((oneField e.1 e.2).yamlText 2) ≠ .ok (oneField e.1 e.2) := by
  rw [List.forall_mem_cons, List.forall_mem_cons, List.forall_mem_singleton]
  refine ⟨⟨?_, ?_⟩, ⟨?_, ?_⟩, ?_, ?_⟩
  · exact wellFormed_oneField (by decide) trivial
  · decide +kernel
  · exact wellFormed_oneField (by decide) ⟨by decide, trivial, by decide, trivial, trivial⟩
  · decide +kernel
  · exact wellFormed_oneField (by decide) trivial
  · decide +kernel

end Workflow.Document
