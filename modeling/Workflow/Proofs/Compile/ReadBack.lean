import Workflow.Proofs.Compile.Emitted
import Workflow.Proofs.Document.ReadBack
import Workflow.Proofs.Graph.Holds
import Workflow.Proofs.NodeType.Keys

/-!
# Compiled documents that are read back

The fields of a compiled state come from a form and the other fields of a compiled document from the
metadata of its graph, whatever keys they have. The document is read back as it was exactly when none
of these keys is one that the state or the document is written with (`compile_reads_back_iff`);
otherwise its text repeats a key, or gives a meaning to what had none.
-/

namespace Workflow

open Json

/-- No record of a graph repeats a key. -/
structure Graph.Keyed (g : Graph) : Prop where
  forms : ∀ id n, g.node? id = some n → KeyedFields n.form
  functions : ∀ fs, g.metadata.functions = some fs → KeyedItems fs
  extra : KeyedFields g.metadata.extra

namespace Compile

variable {c : Catalog} {g : Graph} {id : NodeId} {n : Node} {t : NodeType}

theorem mem_of_key? {slot : TransitionSlot} {key : String} (h : slot.key? = some key) :
    key ∈ ["transition", "defaultTransition", "state"] := by
  cases slot <;> cases h <;> decide

theorem mem_of_mem_fixedKeys {r : TransitionRule} {key : String} (h : key ∈ r.fixedKeys) :
    key ∈ ["transition", "defaultTransition", "state"] := by
  obtain ⟨slot, -, hkey⟩ := List.mem_filterMap.1 h
  exact mem_of_key? hkey

theorem IsStateOf.exists_type {s : State} (h : IsStateOf c g id s) :
    ∃ n t, g.node? id = some n ∧ c.get? n.kind = some t := by
  obtain ⟨n, t, -, -, -, hn, -, -, ht, -⟩ := h
  exact ⟨n, t, hn, ht⟩

/-- A compiled state has the keys of its form, but for those of names and transforms. -/
theorem IsStateOf.keeps {s : State} (h : IsStateOf c g id s) (hn : g.node? id = some n)
    (ht : c.get? n.kind = some t) {keys : List String}
    (hnames : ∀ k ∈ ["transition", "defaultTransition", "state"], k ∉ keys)
    (hplaces : ∀ p ∈ t.form.places, p.outer ∉ keys) : n.form.Keeps keys s.fields := by
  obtain ⟨n', t', -, form, -, hn', -, -, ht', -, -, hw, hf, -⟩ := h
  obtain rfl := Option.some.inj (hn.symm.trans hn')
  obtain rfl := Option.some.inj (ht.symm.trans ht')
  have hstrip := t.transitions.keeps_strip
    (fun k hk => hnames k (mem_of_mem_fixedKeys hk)) n.form
  have hwritten := TransitionRule.keeps_writeAll
    (fun _ _ k hk => hnames k (mem_of_key? hk)) hw
  exact (hstrip.trans hwritten).trans (FormRule.keeps_ofForm hplaces (fieldsOfForm_eq_ok_iff.1 hf))

theorem IsStateOf.keyed_fields {s : State} (h : IsStateOf c g id s) (hg : g.Keyed) :
    KeyedFields s.fields := by
  obtain ⟨n, t, hn, ht⟩ := h.exists_type
  have hkeeps : n.form.Keeps [] s.fields :=
    h.keeps hn ht (fun _ _ => List.not_mem_nil) fun _ _ => List.not_mem_nil
  exact hkeeps.keyed (hg.forms _ n hn)

/-- The start block of a compiled document has different keys: it takes over no other fields than
those of its kind. -/
theorem start_wellFormed {start entry : NodeId} {b : Start} (hg : g.Keyed)
    (h : startOf c g start entry = .ok b) : b.WellFormed := by
  obtain ⟨n, name, t, form, hn, -, -, hf, hb⟩ := startOf_eq_ok_iff.1 h
  have hstrip : n.form.Keeps [] (t.transitions.strip n.form) :=
    t.transitions.keeps_strip (fun _ _ => List.not_mem_nil) n.form
  have hform : Fields.Keeps [] (t.transitions.strip n.form) form :=
    FormRule.keeps_ofForm (fun _ _ => List.not_mem_nil) (fieldsOfForm_eq_ok_iff.1 hf)
  exact Start.wellFormed_of_ofForm ((hstrip.trans hform).keyed (hg.forms _ n hn)) hb

/-- A compiled document is well formed as far as the keys of other fields allow. -/
theorem compile_wellFormed_iff {d : Document} (hg : g.Keyed) (h : (g.compile c).outcome = .ok d) :
    d.WellFormed ↔ (∀ k ∈ g.metadata.extra.keys, k ∉ ["functions", "start", "states"]) ∧
      ∀ s ∈ d.states, ∀ k ∈ s.fields.keys, k ∉ ["id", "type", "catch"] := by
  have hstates : ∀ s ∈ d.states, ∃ id, IsStateOf c g id s := fun _ => exists_isStateOf h
  obtain ⟨start, e, block, w, -, -, -, hb, -, -, rfl⟩ :=
    compile_eq_ok_iff.1 (Traced.eq_of_outcome h)
  constructor
  · exact fun hw => ⟨hw.extra.2, fun s hs => (hw.states s hs).fields.2⟩
  · rintro ⟨hextra, hfields⟩
    refine ⟨⟨hg.extra, hextra⟩, hg.functions, fun s hs => ?_, fun s hs => ?_⟩
    · cases hs
      exact start_wellFormed hg hb
    · obtain ⟨id, hstate⟩ := hstates s hs
      exact ⟨⟨hstate.keyed_fields hg, hfields s hs⟩, fun _ hhs => hstate.handlers_wellFormed hhs⟩

/-- The transforms of the editor's types have other keys than a state. -/
theorem places_of_standard {kind : String} {t : NodeType}
    (h : Catalog.standard.get? kind = some t) :
    ∀ p ∈ t.form.places, p.outer ∉ ["id", "type", "catch"] := by
  have hall : ∀ e ∈ Catalog.standard.entries, ∀ p ∈ e.2.form.places,
      p.outer ∉ ["id", "type", "catch"] := by decide +kernel
  exact hall _ (Catalog.mem_of_get? h)

/-- A compiled document is read back from its text as it was exactly when no form of one of its
states has a key that a state is written with, and the metadata of the graph has none that a document
is written with. It is taken for granted that no transform is one of these keys, that the document is
not nested too deep, and that its numbers are read back. -/
theorem compile_reads_back_iff {d : Document} (hconsistent : g.Consistent) (hg : g.Keyed)
    (hplaces : ∀ kind t, c.get? kind = some t →
      ∀ p ∈ t.form.places, p.outer ∉ ["id", "type", "catch"])
    (h : (g.compile c).outcome = .ok d) (hlegible : d.toJson.Legible)
    (hdepth : d.toJson.depth ≤ depthLimit) :
    Document.ofJsonText d.jsonText = .ok d ↔
      (∀ k ∈ g.metadata.extra.keys, k ∉ ["functions", "start", "states"]) ∧
        ∀ id n, g.node? id = some n → (∃ s ∈ d.states, stateName g id = .ok s.id) →
          ∀ k ∈ n.form.keys, k ∉ ["id", "type", "catch"] := by
  rw [Document.ofJsonText_jsonText_iff hlegible hdepth, compile_wellFormed_iff hg h]
  have hkeys : ∀ id s, IsStateOf c g id s → ∀ n, g.node? id = some n →
      ((∀ k ∈ s.fields.keys, k ∉ ["id", "type", "catch"]) ↔
        ∀ k ∈ n.form.keys, k ∉ ["id", "type", "catch"]) := by
    intro id s hstate n hn
    obtain ⟨n', t, hn', ht⟩ := hstate.exists_type
    obtain rfl := Option.some.inj (hn.symm.trans hn')
    have hkeeps := hstate.keeps hn ht (by decide) (hplaces _ t ht)
    exact ⟨fun h k hk hmem => h k ((hkeeps.mem_keys_iff k hmem).2 hk) hmem,
      fun h k hk hmem => h k ((hkeeps.mem_keys_iff k hmem).1 hk) hmem⟩
  refine and_congr_right fun _ => ⟨fun hfields id n hn ⟨s, hs, hname⟩ => ?_, fun hforms s hs => ?_⟩
  · obtain ⟨id', hstate⟩ := exists_isStateOf h hs
    obtain ⟨_, _, _, _, hvalid, -⟩ := compile_eq_ok_iff.1 (Traced.eq_of_outcome h)
    obtain rfl := eq_of_stateName hconsistent.labelled hvalid hname hstate.stateName_eq
    exact (hkeys _ s hstate n hn).1 (hfields s hs)
  · obtain ⟨id, hstate⟩ := exists_isStateOf h hs
    obtain ⟨n, -, hn, -⟩ := hstate.exists_type
    exact (hkeys id s hstate n hn).2 (hforms id n hn ⟨s, hs, hstate.stateName_eq⟩)

/-- A graph with one state, which has the given form. -/
def oneState (form : Fields) : Graph :=
  { ((Graph.empty .empty).insert (.ofNat 0)
      (.ofType "start" (NodeType.special 0 1 .entry) [])).insert
      (.ofNat 1) { emptyState "a" with form } with
    links := Arena.empty.insert ⟨0, 1, 1, 1⟩ }

theorem oneState_consistent (form : Fields) : (oneState form).Consistent :=
  (((Graph.consistent_empty .empty).insert (by decide) _).insert (by decide) _).congr rfl rfl rfl

theorem form_of_oneState {form : Fields} (h : (oneState form).node? id = some n) :
    n.form = [] ∨ n.form = form := by
  have hempty := Graph.consistent_empty .empty
  have hnew : (Graph.empty .empty).contains (.ofNat 0) = false := by decide
  have hstart := hempty.insert hnew (.ofType "start" (NodeType.special 0 1 .entry) [])
  have h : (Graph.insert _ (.ofNat 1) { emptyState "a" with form }).node? id = some n := h
  rw [hstart.node?_insert, hempty.node?_insert] at h
  split at h
  · cases h
    exact .inr rfl
  · split at h
    · cases h
      exact .inl rfl
    · cases h

theorem oneState_keyed {form : Fields} (hform : KeyedFields form) : (oneState form).Keyed where
  forms id n hn := by
    rcases form_of_oneState hn with h | h
    · rw [h]
      exact trivial
    · rw [h]
      exact hform
  functions _ h := nomatch h
  extra := trivial

/-- What a form has beside the fields of its state is read back with the state. -/
theorem compile_oneState_reads_back {v : Json} (hkeyed : v.Keyed) (hlegible : v.Legible)
    (hdepth : v.depth + 3 ≤ depthLimit) :
    ∃ d, ((oneState [("retries", v)]).compile .standard).outcome = .ok d ∧
      Document.ofJsonText d.jsonText = .ok d := by
  have hcompile : ((oneState [("retries", v)]).compile .standard).outcome
      = .ok ⟨[], none, some ⟨none, some "a", []⟩, [⟨"a", "noop", [("retries", v)], none⟩]⟩ := rfl
  have hform : KeyedFields [("retries", v)] := ⟨List.not_mem_nil, hkeyed, trivial⟩
  refine ⟨_, hcompile, (compile_reads_back_iff (oneState_consistent _) (oneState_keyed hform)
    (fun _ _ => places_of_standard) hcompile ?_ ?_).2 ⟨nofun, fun id m hm _ => ?_⟩⟩
  · exact ⟨⟨trivial, trivial⟩, ⟨⟨trivial, trivial, hlegible, trivial⟩, trivial⟩, trivial⟩
  · show 1 + max (1 + 0) (max (1 + max (1 + max 0 (max 0 (max v.depth 0))) 0) 0) ≤ depthLimit
    omega
  · rcases form_of_oneState hm with h | h
    · rw [h]
      exact nofun
    · have hplain : ∀ k ∈ ["retries"], k ∉ ["id", "type", "catch"] := by decide
      rw [h]
      exact hplain

example : ((oneState [("id", .str "b")]).compile .standard).outcome.map
      (fun d => Document.ofJsonText d.jsonText)
    = .ok (.error (fault (.duplicateField "id"))) := by
  decide +kernel

end Compile

end Workflow
