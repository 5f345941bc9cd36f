import Workflow.Proofs.Document.WellFormed
import Workflow.Proofs.Json.Holds
import Workflow.Proofs.Json.Text

/-!
# Documents that are read back

A record of a document is written with the fields of its own beside those that were kept as they are,
and nothing keeps the latter from repeating a key of the former. A document is read back as it was, from
any data that holds its value, exactly when it is well formed (`Document.read_of_holds`,
`Document.read_toJson_iff`).
-/

namespace Workflow

open Json
open JsonSource (Holds)
open Record (Adds)

variable {σ : Type} [Source σ] [JsonSource σ] {part : σ}

/-! ### Fields that are kept aside -/

theorem Held.add_of_holds (held : Held) (key : String) {v : Json} (hp : Holds part v) (h : v.Keyed) :
    held.add key part = .ok (held ++ [(key, .ok v)]) :=
  Except.bind_eq_ok_iff.2 ⟨.ok v, JsonSource.held hp h, rfl⟩

/-- Fields without a meaning of their own are kept aside one after the other. -/
theorem Fields.Beside.adds_aside {α : Type} {keys : List String}
    {step : α → String → σ → Except Complaint α} {keep : Held → α}
    (hstep : ∀ held key part, key ∉ keys →
      step (keep held) key part = keep <$> Held.add held key part)
    {fields : Fields} (h : fields.Beside keys) (held : Held) :
    Adds step (keep held) fields (keep (held ++ fields.map fun e => (e.1, .ok e.2))) := by
  obtain ⟨hkeyed, hkeys⟩ := h
  replace hkeyed := (keyedFields_iff.1 hkeyed).2
  induction fields generalizing held with
  | nil =>
    rw [List.map_nil, List.append_nil]
    exact .nil
  | cons e rest ih =>
    have hrest := ih (held ++ [(e.1, .ok e.2)]) (fun k hk => hkeys k (List.mem_cons_of_mem _ hk))
      fun e he => hkeyed e (List.mem_cons_of_mem _ he)
    rw [List.append_assoc] at hrest
    refine .cons (fun p hp => ?_) hrest
    rw [hstep _ _ _ (hkeys e.1 List.mem_cons_self),
      Held.add_of_holds held e.1 hp (hkeyed e List.mem_cons_self)]
    rfl

omit [JsonSource σ] in
theorem Held.settle_eq_ok (part : σ) {fields : Fields} (h : fields.keys.Nodup) :
    Held.settle part (fields.map fun e => (e.1, .ok e.2)) = .ok fields := by
  unfold Held.settle
  rw [List.foldlM_map]
  show fields.foldlM (fun acc e => (pure (acc.insert e.1 e.2) : Except Complaint Fields)) [] = _
  rw [List.foldlM_pure]
  exact congrArg _ (Fields.ofEntries_of_nodup h)

/-! ### Error handlers -/

namespace CatchEntry

omit [JsonSource σ] in
theorem step_other (whole : σ) (p : Partial) (held : Held) (key : String) (part : σ)
    (h : key ∉ ["error", "transition"]) :
    Partial.step whole { p with held } key part
      = (fun held => { p with held }) <$> Held.add held key part := by
  obtain ⟨herror, htransition⟩ : key ≠ "error" ∧ key ≠ "transition" := by simpa using h
  simp only [Partial.step, herror, htransition, if_false]
  rfl

theorem step_error (whole : σ) (p : Partial) (hp : p.error = none) {error : String}
    (h : Holds part (.str error)) :
    Partial.step whole p "error" part = .ok { p with error := some error } := by
  simp only [Partial.step, if_true, hp, JsonSource.string h]
  rfl

theorem step_transition (whole : σ) (p : Partial) (hp : p.transition = none) {name : String}
    (h : Holds part (.str name)) :
    Partial.step whole p "transition" part = .ok { p with transition := some (some name) } := by
  have hread := Record.optional_eq_ok_of_holds h Json.noConfusion (JsonSource.string h)
  simp only [Partial.step, show ("transition" = "error") = False by decide, if_false, if_true, hp,
    hread]
  rfl

/-- The fields of an error handler, read one after the other. -/
theorem adds_entries (whole : σ) {h : CatchEntry} (hw : h.WellFormed) :
    Adds (Partial.step whole) ⟨none, none, []⟩ h.entries
      ⟨some h.error, h.transition.map some, h.extra.map fun e => (e.1, .ok e.2)⟩ := by
  have hextra := fun p : Partial => hw.adds_aside (step_other whole p) []
  refine .cons (fun _ => step_error whole _ rfl) ?_
  cases h.transition with
  | none => exact hextra ⟨some h.error, none, []⟩
  | some name =>
    exact .cons (fun _ => step_transition whole _ rfl) (hextra ⟨some h.error, some (some name), []⟩)

/-- An error handler is read when its fields are. -/
theorem read_of_adds {h : CatchEntry} (hw : h.WellFormed) {fields : Fields}
    (hp : Holds part (.obj fields))
    (hadds : Adds (Partial.step part) ⟨none, none, []⟩ fields
      ⟨some h.error, h.transition.map some, h.extra.map fun e => (e.1, .ok e.2)⟩) :
    read part = .ok h := by
  refine Except.bind_eq_ok_iff.2 ⟨_, Record.fields_eq_ok hp hadds,
    Except.bind_eq_ok_iff.2 ⟨h.error, rfl, ?_⟩⟩
  refine Except.bind_eq_ok_iff.2 ⟨h.extra, Held.settle_eq_ok _ hw.1.nodup, ?_⟩
  cases h with
  | mk error transition extra => cases transition <;> rfl

theorem read_of_holds {h : CatchEntry} (hw : h.WellFormed) (hp : Holds part h.toJson) :
    read part = .ok h := read_of_adds hw hp (adds_entries part hw)

end CatchEntry

/-! ### States -/

namespace State

omit [JsonSource σ] in
theorem step_other (whole : σ) (p : Partial) (held : Held) (key : String) (part : σ)
    (h : key ∉ ["id", "type", "catch"]) :
    Partial.step whole { p with held } key part
      = (fun held => { p with held }) <$> Held.add held key part := by
  obtain ⟨hid, htype, hcatch⟩ : key ≠ "id" ∧ key ≠ "type" ∧ key ≠ "catch" := by simpa using h
  simp only [Partial.step, hid, htype, hcatch, if_false]
  rfl

theorem step_id (whole : σ) (p : Partial) (hp : p.id = none) {id : String}
    (h : Holds part (.str id)) :
    Partial.step whole p "id" part = .ok { p with id := some id } := by
  simp only [Partial.step, if_true, hp, JsonSource.string h]
  rfl

theorem step_kind (whole : σ) (p : Partial) (hp : p.kind = none) {kind : String}
    (h : Holds part (.str kind)) :
    Partial.step whole p "type" part = .ok { p with kind := some kind } := by
  simp only [Partial.step, show ("type" = "id") = False by decide, if_false, if_true, hp,
    JsonSource.string h]
  rfl

theorem step_handlers (whole : σ) (p : Partial) (hp : p.handlers = none)
    {hs : List CatchEntry} (hw : ∀ h ∈ hs, h.WellFormed)
    (h : Holds part (.arr (hs.map CatchEntry.toJson))) :
    Partial.step whole p "catch" part = .ok { p with handlers := some (some hs) } := by
  have hlist := Record.list_eq_ok_of_holds h fun x hx _ => CatchEntry.read_of_holds (hw x hx)
  have hread := Record.optional_eq_ok_of_holds h Json.noConfusion hlist
  simp only [Partial.step, show ("catch" = "id") = False by decide,
    show ("catch" = "type") = False by decide, if_false, if_true, hp, hread]
  rfl

/-- The fields of a state, read one after the other. -/
theorem adds_entries (whole : σ) {s : State} (hw : s.WellFormed) :
    Adds (Partial.step whole) ⟨none, none, none, []⟩ s.entries
      ⟨some s.id, some s.kind, s.handlers.map some, s.fields.map fun e => (e.1, .ok e.2)⟩ := by
  refine .cons (fun _ => step_id whole _ rfl) (.cons (fun _ => step_kind whole _ rfl) ?_)
  refine .append _ (hw.fields.adds_aside (step_other whole ⟨some s.id, some s.kind, none, []⟩) []) ?_
  cases hs : s.handlers with
  | none => exact .nil
  | some hs' => exact .single fun _ => step_handlers whole _ rfl (hw.handlers _ hs)

theorem read_of_holds {s : State} (hw : s.WellFormed) (hp : Holds part s.toJson) :
    read part = .ok s := by
  refine Except.bind_eq_ok_iff.2 ⟨_, Record.fields_eq_ok hp (adds_entries _ hw), ?_⟩
  refine Except.bind_eq_ok_iff.2 ⟨s.id, rfl, Except.bind_eq_ok_iff.2 ⟨s.kind, rfl, ?_⟩⟩
  refine Except.bind_eq_ok_iff.2 ⟨s.fields, Held.settle_eq_ok _ hw.fields.1.nodup, ?_⟩
  cases s with
  | mk id kind fields handlers => cases handlers <;> rfl

end State

/-! ### The start block -/

namespace Start

omit [JsonSource σ] in
theorem step_other (whole : σ) (p : Partial) (held : Held) (key : String) (part : σ)
    (h : key ∉ ["type", "state"]) :
    Partial.step whole { p with held } key part
      = (fun held => { p with held }) <$> Held.add held key part := by
  obtain ⟨htype, hstate⟩ : key ≠ "type" ∧ key ≠ "state" := by simpa using h
  simp only [Partial.step, htype, hstate, if_false]
  rfl

theorem readKind_of_holds {kind : StartKind} (h : Holds part (.str kind.name)) :
    readKind part = .ok kind := by
  have hname : kind.name ∈ StartKind.all.map StartKind.name := by cases kind <;> decide
  refine Except.bind_eq_ok_iff.2 ⟨_, JsonSource.variant h hname, ?_⟩
  rw [StartKind.ofName?_name]
  rfl

theorem step_kind (whole : σ) (p : Partial) (hp : p.kind = none) {kind : StartKind}
    (h : Holds part (.str kind.name)) :
    Partial.step whole p "type" part = .ok { p with kind := some (some kind) } := by
  have hread := Record.optional_eq_ok_of_holds h Json.noConfusion (readKind_of_holds h)
  simp only [Partial.step, if_true, hp, hread]
  rfl

theorem step_state (whole : σ) (p : Partial) (hp : p.state = none) {state : String}
    (h : Holds part (.str state)) :
    Partial.step whole p "state" part = .ok { p with state := some (some state) } := by
  have hread := Record.optional_eq_ok_of_holds h Json.noConfusion (JsonSource.string h)
  simp only [Partial.step, show ("state" = "type") = False by decide, if_false, if_true, hp, hread]
  rfl

/-- The fields of a start block, read one after the other. -/
theorem adds_entries (whole : σ) {s : Start} (hw : s.WellFormed) :
    Adds (Partial.step whole) ⟨none, none, []⟩ s.entries
      ⟨s.kind.map some, s.state.map some, s.fields.map fun e => (e.1, .ok e.2)⟩ := by
  refine .append ⟨s.kind.map some, s.state.map some, []⟩
    (.append ⟨s.kind.map some, none, []⟩ ?_ ?_)
    (hw.adds_aside (step_other whole ⟨s.kind.map some, s.state.map some, []⟩) [])
  · cases s.kind with
    | none => exact .nil
    | some kind => exact .single fun _ => step_kind whole _ rfl
  · cases s.state with
    | none => exact .nil
    | some state => exact .single fun _ => step_state whole _ rfl

theorem read_of_holds {s : Start} (hw : s.WellFormed) (hp : Holds part (.obj s.entries)) :
    read part = .ok s := by
  refine Except.bind_eq_ok_iff.2 ⟨_, Record.fields_eq_ok hp (adds_entries _ hw), ?_⟩
  refine Except.bind_eq_ok_iff.2 ⟨s.fields, Held.settle_eq_ok _ hw.1.nodup, ?_⟩
  cases s with
  | mk kind state fields => cases kind <;> cases state <;> rfl

end Start

/-! ### Documents -/

namespace Document

omit [JsonSource σ] in
theorem step_other (whole : σ) (p : Partial) (held : Held) (key : String) (part : σ)
    (h : key ∉ ["functions", "start", "states"]) :
    Partial.step whole { p with held } key part
      = (fun held => { p with held }) <$> Held.add held key part := by
  obtain ⟨hfunctions, hstart, hstates⟩ : key ≠ "functions" ∧ key ≠ "start" ∧ key ≠ "states" := by
    simpa using h
  simp only [Partial.step, hfunctions, hstart, hstates, if_false]
  rfl

theorem step_functions (whole : σ) (p : Partial) (hp : p.functions = none) {fs : List Json}
    (hfs : KeyedItems fs) (h : Holds part (.arr fs)) :
    Partial.step whole p "functions" part = .ok { p with functions := some (some fs) } := by
  have hlist := Record.list_eq_ok_of_holds ((List.map_id fs).symm ▸ h)
    fun v hv _ hp => JsonSource.json hp (keyedItems_iff.1 hfs v hv)
  have hread := Record.optional_eq_ok_of_holds h Json.noConfusion hlist
  simp only [Partial.step, if_true, hp, hread]
  rfl

theorem step_start (whole : σ) (p : Partial) (hp : p.start = none) {s : Start}
    (hw : s.WellFormed) (h : Holds part (.obj s.entries)) :
    Partial.step whole p "start" part = .ok { p with start := some (some s) } := by
  have hread := Record.optional_eq_ok_of_holds h Json.noConfusion (Start.read_of_holds hw h)
  simp only [Partial.step, show ("start" = "functions") = False by decide, if_false, if_true, hp,
    hread]
  rfl

theorem step_states (whole : σ) (p : Partial) (hp : p.states = none) {states : List State}
    (hw : ∀ s ∈ states, s.WellFormed) (h : Holds part (.arr (states.map State.toJson))) :
    Partial.step whole p "states" part = .ok { p with states := some states } := by
  have hread := Record.list_eq_ok_of_holds h fun s hs _ => State.read_of_holds (hw s hs)
  simp only [Partial.step, show ("states" = "functions") = False by decide,
    show ("states" = "start") = False by decide, if_false, if_true, hp, hread]
  rfl

/-- The fields of a document, read one after the other. -/
theorem adds_entries (whole : σ) {d : Document} (hw : d.WellFormed) :
    Adds (Partial.step whole) ⟨none, none, none, []⟩ d.entries
      ⟨d.functions.map some, d.start.map some, some d.states,
        d.extra.map fun e => (e.1, .ok e.2)⟩ := by
  have hextra := hw.extra.adds_aside (step_other whole ⟨none, none, none, []⟩) []
  rw [List.nil_append] at hextra
  generalize d.extra.map (fun e => ((e.1, .ok e.2) : String × Except Fault Json)) = held at hextra ⊢
  refine .append ⟨d.functions.map some, d.start.map some, none, held⟩
    (.append ⟨d.functions.map some, none, none, held⟩ (.append _ hextra ?_) ?_)
    (.single fun _ => step_states whole _ rfl hw.states)
  · cases hfs : d.functions with
    | none => exact .nil
    | some fs => exact .single fun _ => step_functions whole _ rfl (hw.functions fs hfs)
  · cases hs : d.start with
    | none => exact .nil
    | some s => exact .single fun _ => step_start whole _ rfl (hw.start s hs)

/-- A document is read from any data that holds it. -/
theorem read_of_holds {d : Document} (hw : d.WellFormed) (hp : Holds part d.toJson) :
    read part = .ok d := by
  refine Except.bind_eq_ok_iff.2 ⟨_, Record.fields_eq_ok hp (adds_entries _ hw), ?_⟩
  refine Except.bind_eq_ok_iff.2 ⟨d.extra, Held.settle_eq_ok _ hw.extra.1.nodup, ?_⟩
  cases d with
  | mk extra functions start states => cases functions <;> cases start <;> rfl

/-- A document is read back as it was exactly when it is well formed. -/
theorem read_toJson_iff {d : Document} {inText : Bool} :
    read (d.toJson.part inText) = .ok d ↔ d.WellFormed :=
  ⟨read_wellFormed, fun hw => read_of_holds hw (holds_part _ inText)⟩

/-- The text of a document gives the document back exactly when the document is well formed, if it is
not nested too deep and its numbers are read back. -/
theorem ofJsonText_jsonText_iff {d : Document} (hd : d.toJson.Legible)
    (hdepth : d.toJson.depth ≤ depthLimit) : ofJsonText d.jsonText = .ok d ↔ d.WellFormed := by
  rw [ofJsonText, jsonText, readText_pretty _ hd hdepth]
  exact read_toJson_iff

end Document

end Workflow
