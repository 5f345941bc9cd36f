import Workflow.Document.Text
import Workflow.Proofs.Document.Steps
import Workflow.Proofs.Json.Keyed
import Workflow.Proofs.Lists

/-!
# Documents as they are read

A record of a document keeps the fields that have no meaning of their own beside those that have.
`Document.WellFormed` says that the former never repeat a key, neither one of their own nor one that
has a meaning. Every document that is read from a text is of this kind (`wellFormed_of_json`,
`wellFormed_of_yaml`).
-/

namespace Workflow

/-- Fields that stand beside others with the given keys: no key is repeated. -/
def Fields.Beside (keys : List String) (fields : Fields) : Prop :=
  Json.KeyedFields fields ∧ ∀ k ∈ fields.keys, k ∉ keys

/-- The fields of an error handler have different keys. -/
def CatchEntry.WellFormed (h : CatchEntry) : Prop := h.extra.Beside ["error", "transition"]

/-- The fields of a state have different keys, and so have those of its error handlers. -/
structure State.WellFormed (s : State) : Prop where
  fields : s.fields.Beside ["id", "type", "catch"]
  handlers : ∀ hs, s.handlers = some hs → ∀ h ∈ hs, h.WellFormed

/-- The fields of a start block have different keys. -/
def Start.WellFormed (s : Start) : Prop := s.fields.Beside ["type", "state"]

/-- The fields of every record of a document have different keys. -/
structure Document.WellFormed (d : Document) : Prop where
  extra : d.extra.Beside ["functions", "start", "states"]
  functions : ∀ fs, d.functions = some fs → Json.KeyedItems fs
  start : ∀ s, d.start = some s → s.WellFormed
  states : ∀ s ∈ d.states, s.WellFormed

/-! ### Reading -/

/-- What is read as plain data repeats no key. -/
class KeyedSource (σ : Type) [Source σ] : Prop where
  json : ∀ (p : σ) (v : Json), Source.json p = .ok v → v.Keyed
  held : ∀ (p : σ) (v : Json), Source.held p = .ok (.ok v) → v.Keyed

namespace Record

variable {σ α : Type} [Source σ]

/-- What each step keeps holds of a record that was read. -/
theorem fields_induction {P : α → Prop} {expected : String}
    {step : α → String → σ → Except Complaint α} {empty v : α} {part : σ} (hempty : P empty)
    (hstep : ∀ acc key part acc', P acc → step acc key part = .ok acc' → P acc')
    (h : fields expected step empty part = .ok v) : P v := by
  unfold fields at h
  obtain ⟨entries, -, h⟩ := Except.bind_eq_ok_iff.1 h
  obtain ⟨acc, hacc, h⟩ := Except.bind_eq_ok_iff.1 h
  have hP : P acc := by
    refine Except.foldlM_induction ?_ hempty hacc
    intro acc e _ acc' hP hstep'
    obtain ⟨key, -, hs⟩ := Except.bind_eq_ok_iff.1 hstep'
    exact hstep acc key e.2 acc' hP hs
  split at h
  · exact absurd h Except.throw_ne_ok
  · exact Except.pure_eq_ok_iff.1 h ▸ hP

theorem optional_eq_ok {read : σ → Except Complaint α} {part : σ} {v : α}
    (h : optional read part = .ok (some v)) : ∃ p, read p = .ok v := by
  unfold optional at h
  obtain ⟨present, -, h⟩ := Except.bind_eq_ok_iff.1 h
  split at h
  next p =>
    obtain ⟨w, hw, hwv⟩ := Except.map_eq_ok_iff.1 h
    exact ⟨p, hw.trans (congrArg _ (Option.some.inj hwv))⟩
  next => cases Except.pure_eq_ok_iff.1 h

theorem list_eq_ok {read : σ → Except Complaint α} {part : σ} {vs : List α}
    (h : list read part = .ok vs) : ∀ v ∈ vs, ∃ p, read p = .ok v := by
  unfold list at h
  obtain ⟨items, -, h⟩ := Except.bind_eq_ok_iff.1 h
  obtain ⟨values, hvalues, h⟩ := Except.bind_eq_ok_iff.1 h
  split at h
  · exact absurd h Except.throw_ne_ok
  · obtain rfl := Except.pure_eq_ok_iff.1 h
    intro v hv
    obtain ⟨p, -, hp⟩ := (Except.mapM_eq_ok_iff.1 hvalues).exists_of_mem_right hv
    exact ⟨p, hp⟩

end Record

/-- The fields that were kept aside so far stand beside others with the given keys. -/
def Held.Beside (keys : List String) (held : Held) : Prop :=
  ∀ e ∈ held, e.1 ∉ keys ∧ ∀ v, e.2 = .ok v → v.Keyed

variable {σ : Type} [Source σ] [KeyedSource σ]

theorem Held.Beside.add {keys : List String} {held held' : Held} {key : String} {part : σ}
    (h : held.Beside keys) (hkey : key ∉ keys) (hadd : held.add key part = .ok held') :
    held'.Beside keys := by
  unfold Held.add at hadd
  obtain ⟨x, hx, hadd⟩ := Except.bind_eq_ok_iff.1 hadd
  obtain rfl := Except.pure_eq_ok_iff.1 hadd
  intro e he
  rcases List.mem_append.1 he with he | he
  · exact h e he
  · obtain rfl := List.mem_singleton.1 he
    exact ⟨hkey, fun v hv => KeyedSource.held part v (hx.trans (congrArg _ hv))⟩

omit [KeyedSource σ] in
theorem Held.Beside.settle {keys : List String} {held : Held} {part : σ} {fields : Fields}
    (h : held.Beside keys) (hs : held.settle part = .ok fields) : fields.Beside keys := by
  unfold Held.settle at hs
  refine Except.foldlM_induction (P := Fields.Beside keys) ?_ ?_ hs
  · intro acc e he acc' hacc hstep
    obtain ⟨hkey, hkeyed⟩ := h e he
    split at hstep
    next v hv =>
      obtain rfl := Except.pure_eq_ok_iff.1 hstep
      refine ⟨hacc.1.insert _ (hkeyed v hv), fun k hk => ?_⟩
      rcases Fields.mem_keys_insert.1 hk with rfl | hk
      · exact hkey
      · exact hacc.2 k hk
    next => exact absurd hstep Except.throw_ne_ok
  · exact ⟨trivial, nofun⟩

theorem CatchEntry.read_wellFormed {part : σ} {h : CatchEntry} (hr : read part = .ok h) :
    h.WellFormed := by
  unfold read at hr
  obtain ⟨p, hp, hr⟩ := Except.bind_eq_ok_iff.1 hr
  obtain ⟨error, -, hr⟩ := Except.bind_eq_ok_iff.1 hr
  obtain ⟨extra, hextra, hr⟩ := Except.bind_eq_ok_iff.1 hr
  obtain rfl := Except.pure_eq_ok_iff.1 hr
  have hheld : p.held.Beside ["error", "transition"] := by
    refine Record.fields_induction (P := fun p : Partial => p.held.Beside _) ?_ ?_ hp
    · exact nofun
    · intro acc key part acc' hacc hstep
      rcases step_eq_ok_iff.1 hstep with
        ⟨-, -, _, -, rfl⟩ | ⟨-, -, _, -, rfl⟩ | ⟨hkey, held, hadd, rfl⟩
      · exact hacc
      · exact hacc
      · exact hacc.add hkey hadd
  exact hheld.settle hextra

/-- The part of a state that was read so far. -/
structure State.Partial.Sound (p : State.Partial) : Prop where
  held : p.held.Beside ["id", "type", "catch"]
  handlers : ∀ hs, p.handlers = some (some hs) → ∀ h ∈ hs, h.WellFormed

theorem State.Partial.Sound.step {p p' : State.Partial} {whole part : σ} {key : String}
    (h : p.Sound) (hs : Partial.step whole p key part = .ok p') : p'.Sound := by
  rcases step_eq_ok_iff.1 hs with ⟨-, -, _, -, rfl⟩ | ⟨-, -, _, -, rfl⟩ |
    ⟨-, -, list, hread, rfl⟩ | ⟨hkey, held, hadd, rfl⟩
  · exact ⟨h.held, h.handlers⟩
  · exact ⟨h.held, h.handlers⟩
  · refine ⟨h.held, fun hs hlist handler hmem => ?_⟩
    cases hlist
    obtain ⟨q, hq⟩ := Record.optional_eq_ok hread
    obtain ⟨r, hr⟩ := Record.list_eq_ok hq handler hmem
    exact CatchEntry.read_wellFormed hr
  · exact ⟨h.held.add hkey hadd, h.handlers⟩

theorem State.read_wellFormed {part : σ} {s : State} (hr : read part = .ok s) : s.WellFormed := by
  unfold read at hr
  obtain ⟨p, hp, hr⟩ := Except.bind_eq_ok_iff.1 hr
  obtain ⟨id, -, hr⟩ := Except.bind_eq_ok_iff.1 hr
  obtain ⟨kind, -, hr⟩ := Except.bind_eq_ok_iff.1 hr
  obtain ⟨fields, hfields, hr⟩ := Except.bind_eq_ok_iff.1 hr
  obtain rfl := Except.pure_eq_ok_iff.1 hr
  have hsound : p.Sound := by
    refine Record.fields_induction ?_ ?_ hp
    · exact ⟨nofun, nofun⟩
    · exact fun _ _ _ _ h hs => h.step hs
  refine ⟨hsound.held.settle hfields, fun hs hhs => hsound.handlers hs ?_⟩
  exact Option.join_eq_some_iff.1 hhs

theorem Start.read_wellFormed {part : σ} {s : Start} (hr : read part = .ok s) : s.WellFormed := by
  unfold read at hr
  obtain ⟨p, hp, hr⟩ := Except.bind_eq_ok_iff.1 hr
  obtain ⟨fields, hfields, hr⟩ := Except.bind_eq_ok_iff.1 hr
  obtain rfl := Except.pure_eq_ok_iff.1 hr
  have hheld : p.held.Beside ["type", "state"] := by
    refine Record.fields_induction (P := fun p : Partial => p.held.Beside _) ?_ ?_ hp
    · exact nofun
    · intro acc key part acc' hacc hstep
      rcases step_eq_ok_iff.1 hstep with
        ⟨-, -, _, -, rfl⟩ | ⟨-, -, _, -, rfl⟩ | ⟨hkey, held, hadd, rfl⟩
      · exact hacc
      · exact hacc
      · exact hacc.add hkey hadd
  exact hheld.settle hfields

/-- The part of a document that was read so far. -/
structure Document.Partial.Sound (p : Document.Partial) : Prop where
  held : p.held.Beside ["functions", "start", "states"]
  functions : ∀ fs, p.functions = some (some fs) → Json.KeyedItems fs
  start : ∀ s, p.start = some (some s) → s.WellFormed
  states : ∀ ss, p.states = some ss → ∀ s ∈ ss, s.WellFormed

theorem Document.Partial.Sound.step {p p' : Document.Partial} {whole part : σ} {key : String}
    (h : p.Sound) (hs : Partial.step whole p key part = .ok p') : p'.Sound := by
  rcases step_eq_ok_iff.1 hs with ⟨-, -, fs, hread, rfl⟩ | ⟨-, -, s, hread, rfl⟩ |
    ⟨-, -, ss, hread, rfl⟩ | ⟨hkey, held, hadd, rfl⟩
  · refine ⟨h.held, fun fs' hfs => ?_, h.start, h.states⟩
    cases hfs
    obtain ⟨q, hq⟩ := Record.optional_eq_ok hread
    refine Json.keyedItems_iff.2 fun f hf => ?_
    obtain ⟨r, hr⟩ := Record.list_eq_ok hq f hf
    exact KeyedSource.json r f hr
  · refine ⟨h.held, h.functions, fun s' hs => ?_, h.states⟩
    cases hs
    obtain ⟨q, hq⟩ := Record.optional_eq_ok hread
    exact Start.read_wellFormed hq
  · refine ⟨h.held, h.functions, h.start, fun ss' hss s hmem => ?_⟩
    cases hss
    obtain ⟨r, hr⟩ := Record.list_eq_ok hread s hmem
    exact State.read_wellFormed hr
  · exact ⟨h.held.add hkey hadd, h.functions, h.start, h.states⟩

theorem Document.read_wellFormed {part : σ} {d : Document} (hr : read part = .ok d) :
    d.WellFormed := by
  unfold read at hr
  obtain ⟨p, hp, hr⟩ := Except.bind_eq_ok_iff.1 hr
  obtain ⟨fields, hfields, hr⟩ := Except.bind_eq_ok_iff.1 hr
  obtain rfl := Except.pure_eq_ok_iff.1 hr
  have hsound : p.Sound := by
    refine Record.fields_induction ?_ ?_ hp
    · exact ⟨nofun, nofun, nofun, nofun⟩
    · exact fun _ _ _ _ h hs => h.step hs
  refine ⟨hsound.held.settle hfields, fun fs hfs => hsound.functions fs ?_,
    fun s hs => hsound.start s ?_, fun s hs => ?_⟩
  · exact Option.join_eq_some_iff.1 hfs
  · exact Option.join_eq_some_iff.1 hs
  · cases hp : p.states with
    | none =>
      simp only [hp, Option.getD_none] at hs
      cases hs
    | some ss =>
      simp only [hp, Option.getD_some] at hs
      exact hsound.states ss hp s hs

/-! ### The two formats -/

theorem Yaml.Part.keyed_scalarJson? {s : Yaml.Scalar} {v : Json}
    (h : Yaml.Part.scalarJson? s = some v) : v.Keyed := by
  unfold scalarJson? at h
  split at h
  all_goals first | (obtain rfl := Option.some.inj h; trivial) | cases h

namespace Json

mutual

theorem keyed_toJson? : (r : Raw) → {v : Json} → r.toJson? = some v → v.Keyed
  | .null, _, h | .bool _, _, h | .num _, _, h | .str _, _, h => by
    obtain rfl := Option.some.inj h
    trivial
  | .arr items .closed, _, h => by
    obtain ⟨vs, hvs, rfl⟩ := Option.map_eq_some_iff.1 h
    exact keyed_toItems? items hvs
  | .obj fields .closed, _, h => by
    obtain ⟨fs, hfs, rfl⟩ := Option.map_eq_some_iff.1 h
    exact keyed_toFields? [] fields trivial hfs

theorem keyed_toItems? : (items : List Raw) → {vs : List Json} → Raw.toItems? items = some vs →
    KeyedItems vs
  | [], _, h => by
    obtain rfl := Option.some.inj h
    trivial
  | r :: rest, _, h => by
    obtain ⟨v, hv, h⟩ := Option.bind_eq_some_iff.1 h
    obtain ⟨vs, hvs, h⟩ := Option.bind_eq_some_iff.1 h
    obtain rfl := Option.some.inj h
    exact ⟨keyed_toJson? r hv, keyed_toItems? rest hvs⟩

theorem keyed_toFields? : (acc : Fields) → (fields : List (String × Raw)) → {fs : Fields} →
    KeyedFields acc → Raw.toFields? acc fields = some fs → KeyedFields fs
  | _, [], _, hacc, h => Option.some.inj h ▸ hacc
  | acc, (k, r) :: rest, _, hacc, h => by
    obtain ⟨v, hv, h⟩ := Option.bind_eq_some_iff.1 h
    exact keyed_toFields? _ rest (hacc.insert k (keyed_toJson? r hv)) h

end

theorem Part.toJson_keyed {p : Part} {v : Json} (h : p.toJson = .ok v) : v.Keyed := by
  unfold toJson at h
  split at h
  next w hw =>
    obtain rfl := Except.pure_eq_ok_iff.1 h
    exact keyed_toJson? _ hw
  next => exact absurd h Except.throw_ne_ok

instance : KeyedSource Part where
  json _ _ h := Part.toJson_keyed h
  held _ _ h := by
    obtain ⟨w, hw, hv⟩ := Except.map_eq_ok_iff.1 h
    cases hv
    exact Part.toJson_keyed hw

end Json

namespace Yaml.Part

mutual

theorem keyed_json : (place : Option String) → (n : Node) → {v : Json} → json place n = .ok v →
    v.Keyed
  | place, .scalar tag plain text, v, h => by
    unfold json at h
    split at h
    · exact absurd h Except.throw_ne_ok
    · split at h
      next w hw =>
        obtain rfl := Except.pure_eq_ok_iff.1 h
        obtain ⟨s, -, hs⟩ := Option.bind_eq_some_iff.1 hw
        exact keyed_scalarJson? hs
      next => exact absurd h Except.throw_ne_ok
  | place, .seq tag items, v, h => by
    unfold json at h
    split at h
    · exact absurd h Except.throw_ne_ok
    · obtain ⟨vs, hvs, rfl⟩ := Except.map_eq_ok_iff.1 h
      exact keyed_jsonItems place 0 items hvs
  | place, .map tag entries, v, h => by
    unfold json at h
    split at h
    · exact absurd h Except.throw_ne_ok
    · obtain ⟨fs, hfs, rfl⟩ := Except.map_eq_ok_iff.1 h
      exact keyed_jsonFields place [] entries trivial hfs
  | place, .alias n, v, h => by
    unfold json at h
    exact keyed_json place n h

theorem keyed_jsonItems : (place : Option String) → (position : Nat) → (items : List Node) →
    {vs : List Json} → jsonItems place position items = .ok vs → Json.KeyedItems vs
  | _, _, [], vs, h => by
    unfold jsonItems at h
    obtain rfl := Except.pure_eq_ok_iff.1 h
    trivial
  | place, position, n :: rest, vs, h => by
    unfold jsonItems at h
    obtain ⟨v, hv, h⟩ := Except.bind_eq_ok_iff.1 h
    obtain ⟨ws, hws, h⟩ := Except.bind_eq_ok_iff.1 h
    obtain rfl := Except.pure_eq_ok_iff.1 h
    exact ⟨keyed_json _ n hv, keyed_jsonItems place _ rest hws⟩

theorem keyed_jsonFields : (place : Option String) → (acc : Fields) →
    (entries : List (Node × Node)) → {fs : Fields} → Json.KeyedFields acc →
    jsonFields place acc entries = .ok fs → Json.KeyedFields fs
  | _, acc, [], fs, hacc, h => by
    unfold jsonFields at h
    exact Except.pure_eq_ok_iff.1 h ▸ hacc
  | place, acc, (k, n) :: rest, fs, hacc, h => by
    unfold jsonFields at h
    obtain ⟨key, -, h⟩ := Except.bind_eq_ok_iff.1 h
    obtain ⟨v, hv, h⟩ := Except.bind_eq_ok_iff.1 h
    exact keyed_jsonFields place _ rest (hacc.insert key (keyed_json _ n hv)) h

end

mutual

theorem keyed_heldJson : (n : Node) → {v : Json} → heldJson n = .ok v → v.Keyed
  | .scalar tag plain text, v, h => by
    unfold heldJson at h
    split at h
    next w hw =>
      obtain rfl := Except.pure_eq_ok_iff.1 h
      obtain ⟨s, -, hs⟩ := Option.bind_eq_some_iff.1 hw
      exact keyed_scalarJson? hs
    next => exact absurd h Except.throw_ne_ok
  | .seq tag items, v, h => by
    unfold heldJson at h
    obtain ⟨vs, hvs, rfl⟩ := Except.map_eq_ok_iff.1 h
    exact keyed_heldItems items hvs
  | .map tag entries, v, h => by
    unfold heldJson at h
    obtain ⟨fs, hfs, rfl⟩ := Except.map_eq_ok_iff.1 h
    exact keyed_heldFields [] entries trivial hfs
  | .alias n, v, h => by
    unfold heldJson at h
    exact keyed_heldJson n h

theorem keyed_heldItems : (items : List Node) → {vs : List Json} → heldItems items = .ok vs →
    Json.KeyedItems vs
  | [], vs, h => by
    unfold heldItems at h
    obtain rfl := Except.pure_eq_ok_iff.1 h
    trivial
  | n :: rest, vs, h => by
    unfold heldItems at h
    obtain ⟨v, hv, h⟩ := Except.bind_eq_ok_iff.1 h
    obtain ⟨ws, hws, h⟩ := Except.bind_eq_ok_iff.1 h
    obtain rfl := Except.pure_eq_ok_iff.1 h
    exact ⟨keyed_heldJson n hv, keyed_heldItems rest hws⟩

theorem keyed_heldFields : (acc : Fields) → (entries : List (Node × Node)) → {fs : Fields} →
    Json.KeyedFields acc → heldFields acc entries = .ok fs → Json.KeyedFields fs
  | acc, [], fs, hacc, h => by
    unfold heldFields at h
    exact Except.pure_eq_ok_iff.1 h ▸ hacc
  | acc, (k, n) :: rest, fs, hacc, h => by
    unfold heldFields at h
    split at h
    next key hkey =>
      obtain ⟨v, hv, h⟩ := Except.bind_eq_ok_iff.1 h
      exact keyed_heldFields _ rest (hacc.insert key (keyed_heldJson n hv)) h
    next => exact absurd h Except.throw_ne_ok

end

instance : KeyedSource Part where
  json p _ h := keyed_json p.place p.node h
  held p v h := by
    have h : (do untagged p.place p.node; return heldJson p.node : Except Complaint _) = _ := h
    obtain ⟨_, -, h⟩ := Except.bind_eq_ok_iff.1 h
    exact keyed_heldJson p.node (Except.pure_eq_ok_iff.1 h)

end Yaml.Part

namespace Document

theorem wellFormed_of_json {text : String} {d : Document} (h : ofJsonText text = .ok d) :
    d.WellFormed := by
  have h : Json.readText read text = .ok d := h
  unfold Json.readText at h
  split at h
  rename_i raw complete hraw
  split at h
  next v hv =>
    split at h
    · cases h
      exact read_wellFormed hv
    · cases h
  next => cases h

theorem wellFormed_of_yaml {text : String} {d : Document} (h : ofYamlText text = .ok d) :
    d.WellFormed := by
  have h : Yaml.readText read text = .ok d := h
  unfold Yaml.readText at h
  split at h
  · cases h
  · simp only at h
    split at h
    next v hv =>
      cases h
      exact read_wellFormed hv
    next => split at h <;> cases h

end Document

end Workflow
