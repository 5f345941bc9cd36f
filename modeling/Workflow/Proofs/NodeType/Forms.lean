import Workflow.NodeType.Catalog
import Workflow.Proofs.NodeType.Slots

/-!
# Forms and names

A form differs from the fields of its state only where these hold transforms and retries. For the
types of the standard catalog those are never the places of names (`apart_of_standard`), so a form
names the same states as the fields (`SameNames.toForm`).
-/

namespace Workflow

namespace Fields

theorem get?_assign_of_ne (fields : Fields) {key other : String} (v? : Option Json)
    (h : other ≠ key) : (fields.assign key v?).get? other = fields.get? other := by
  cases v? with
  | none => exact get?_erase_of_ne fields h
  | some v => exact get?_insert_of_ne fields v h

theorem get?_decodeAt_of_ne (fields : Fields) {key other : String} (h : other ≠ key) :
    (fields.decodeAt key).get? other = fields.get? other := by
  unfold decodeAt
  split
  · rfl
  · exact get?_assign_of_ne fields _ h

end Fields

/-- Changes a record; any other value stays as it is. -/
def Json.onRecord (f : Fields → Fields) : Json → Json
  | .obj record => .obj (f record)
  | v => v

namespace TransformPlace

/-- The field that the transforms at a place are in. -/
def outer : TransformPlace → String
  | field key => key
  | nested outer _ => outer
  | eachIn list _ => list

theorem eachRecord_pure (f : Fields → Fields) (index : Nat) (items : List Json) :
    eachRecord (m := Id) (fun _ record => pure (f record)) index items
      = pure (items.map (Json.onRecord f)) := by
  induction items generalizing index with
  | nil => rfl
  | cons v rest ih =>
    cases v <;> simp only [eachRecord, ih, List.map_cons, Json.onRecord] <;> rfl

theorem decode_nested (fields : Fields) (outer key : String) :
    decode fields (.nested outer key) = match fields.get? outer with
      | some (.obj record) => fields.insert outer (.obj (Fields.decodeAt record key))
      | _ => fields := by
  simp only [decode, apply]
  cases fields.get? outer with
  | none => rfl
  | some v => cases v <;> rfl

theorem decode_eachIn (fields : Fields) (list key : String) :
    decode fields (.eachIn list key)
      = TransitionSlot.changeItems (List.map (Json.onRecord (Fields.decodeAt · key))) fields list := by
  simp only [decode, apply, TransitionSlot.changeItems,
    eachRecord_pure (fun record => Fields.decodeAt record key)]
  cases fields.get? list with
  | none => rfl
  | some v => cases v <;> rfl

end TransformPlace

namespace TransitionRule

/-- The keys of the fields that a rule reads. -/
def ownKeys (r : TransitionRule) : List String :=
  r.fixed.filterMap TransitionSlot.key? ++ r.list?.toList

/-- Two lists of fields name the same states. -/
structure SameNames (r : TransitionRule) (fields fields' : Fields) : Prop where
  fixed : ∀ s ∈ r.fixed, s.read fields = s.read fields'
  entries : (r.entries fields).map TransitionSlot.entryName?
    = (r.entries fields').map TransitionSlot.entryName?

namespace SameNames

variable {r : TransitionRule} {fields fields' fields'' : Fields}

theorem refl : r.SameNames fields fields := ⟨fun _ _ => rfl, rfl⟩

theorem trans (h : r.SameNames fields fields') (h' : r.SameNames fields' fields'') :
    r.SameNames fields fields'' :=
  ⟨fun s hs => (h.fixed s hs).trans (h'.fixed s hs), h.entries.trans h'.entries⟩

theorem targets_eq (h : r.SameNames fields fields') : r.targets fields = r.targets fields' := by
  have hlength : (r.entries fields).length = (r.entries fields').length := by
    simpa using congrArg List.length h.entries
  have hnames : r.names fields = r.names fields' := by
    rw [names, names, h.entries, List.map_congr_left h.fixed]
  rw [targets, targets, hnames, portsFor, portsFor, hlength]

theorem read_eq_none_of_key? {s : TransitionSlot} (hs : s ∈ r.fixed) (hkey : s.key? = none)
    (fields : Fields) : s.read fields = none := by
  cases s with
  | branch => cases r <;> simp [TransitionRule.fixed] at hs
  | error => rfl
  | _ => cases hkey

/-- A fixed slot only reads the field of its key. -/
theorem read_congr {s : TransitionSlot} (hs : s ∈ r.fixed)
    (h : ∀ key, s.key? = some key → fields.get? key = fields'.get? key) :
    s.read fields = s.read fields' := by
  cases hkey : s.key? with
  | none => rw [read_eq_none_of_key? hs hkey, read_eq_none_of_key? hs hkey]
  | some key => rw [TransitionSlot.read_of_key hkey, TransitionSlot.read_of_key hkey, h key hkey]

theorem of_get? (h : ∀ key ∈ r.ownKeys, fields.get? key = fields'.get? key) :
    r.SameNames fields fields' where
  fixed s hs := read_congr hs fun key hkey =>
    h key (List.mem_append_left _ (List.mem_filterMap.2 ⟨s, hs, hkey⟩))
  entries := by
    unfold TransitionRule.entries
    cases hl : r.list? with
    | none => rfl
    | some list =>
      have hmem : list ∈ r.ownKeys := List.mem_append_right _ (by rw [hl]; exact List.mem_cons_self)
      simp only [TransitionSlot.itemsOf_congr (h list hmem)]

end SameNames

end TransitionRule

/-! ### Forms -/

/-- A transform stands at none of the places of names. -/
def TransformPlace.apart (r : TransitionRule) : TransformPlace → Bool
  | field key => key ∉ r.ownKeys
  | nested outer _ => outer ∉ r.ownKeys
  | eachIn list key =>
    list ∉ r.fixed.filterMap TransitionSlot.key? &&
      (list ∉ r.list?.toList || key ≠ TransitionSlot.transitionKey)

/-- No field of a name is changed by the form of a type. -/
def NodeType.apart (t : NodeType) : Bool :=
  match t.form with
  | .plain => true
  | .transforms places => places.all (·.apart t.transitions)
  | .loop places => places.all (·.apart t.transitions) && "action" ∉ t.transitions.ownKeys

theorem Json.entryName?_onRecord {f : Fields → Fields}
    (hf : ∀ record, (f record).get? TransitionSlot.transitionKey
      = Fields.get? record TransitionSlot.transitionKey) (v : Json) :
    TransitionSlot.entryName? (v.onRecord f) = TransitionSlot.entryName? v := by
  cases v with
  | obj record => simp [TransitionSlot.entryName?, Json.onRecord, Json.obj?, hf]
  | _ => rfl

namespace TransitionRule.SameNames

variable {r : TransitionRule}

/-- A change of the value at a place that is apart from the names keeps the names. Where the place
is in the entries of the list of names, it is one of their other fields. -/
theorem of_place {p : TransformPlace} (h : p.apart r = true) {fields fields' : Fields}
    (hother : ∀ key, key ≠ p.outer → fields'.get? key = fields.get? key)
    (hentries : ∀ list key, p = .eachIn list key → TransitionSlot.transitionKey ≠ key →
      (TransitionSlot.itemsOf fields' list).map TransitionSlot.entryName?
        = (TransitionSlot.itemsOf fields list).map TransitionSlot.entryName?) :
    r.SameNames fields' fields := by
  by_cases hown : p.outer ∈ r.ownKeys
  · cases p with
    | field key => exact absurd hown (of_decide_eq_true h)
    | nested outer key => exact absurd hown (of_decide_eq_true h)
    | eachIn list key =>
      obtain ⟨hfixed, hlist⟩ := Bool.and_eq_true_iff.1 h
      have hfixed := of_decide_eq_true hfixed
      have hmem := (List.mem_append.1 hown).resolve_left hfixed
      have hkey : TransitionSlot.transitionKey ≠ key := by
        rcases Bool.or_eq_true_iff.1 hlist with hl | hk
        · exact absurd hmem (of_decide_eq_true hl)
        · exact Ne.symm (of_decide_eq_true hk)
      refine ⟨fun s hs => read_congr hs fun key' hk => hother key' ?_, ?_⟩
      · rintro rfl
        exact hfixed (List.mem_filterMap.2 ⟨s, hs, hk⟩)
      · rw [Option.mem_toList] at hmem
        unfold TransitionRule.entries
        rw [show r.list? = some list from hmem]
        exact hentries list key rfl hkey
  · exact of_get? fun key hkey => hother key fun he => hown (he ▸ hkey)

theorem decode {p : TransformPlace} (h : p.apart r = true) (fields : Fields) :
    r.SameNames (TransformPlace.decode fields p) fields := by
  refine of_place h (fun other hne => ?_) fun list key hp hkey => ?_
  · cases p with
    | field key => exact Fields.get?_decodeAt_of_ne fields hne
    | nested outer key =>
      rw [TransformPlace.decode_nested]
      split
      · exact Fields.get?_insert_of_ne fields _ hne
      · rfl
    | eachIn list key =>
      rw [TransformPlace.decode_eachIn]
      exact TransitionSlot.get?_changeItems_of_ne _ _ hne
  · subst hp
    rw [TransformPlace.decode_eachIn, TransitionSlot.itemsOf_changeItems (f := List.map _) rfl,
      List.map_map]
    refine List.map_congr_left fun v _ => ?_
    exact Json.entryName?_onRecord (fun record => Fields.get?_decodeAt_of_ne record hkey) v

theorem foldl_decode {places : List TransformPlace} (h : places.all (·.apart r) = true)
    (fields : Fields) : r.SameNames (places.foldl TransformPlace.decode fields) fields := by
  induction places generalizing fields with
  | nil => exact refl
  | cons p rest ih =>
    rw [List.all_cons, Bool.and_eq_true] at h
    exact (ih h.2 _).trans (decode h.1 fields)

theorem unwrapRetries (h : "action" ∉ r.ownKeys) (fields : Fields) :
    r.SameNames (FormRule.unwrapRetries fields) fields := by
  refine of_get? fun key hkey => ?_
  have hne : key ≠ "action" := fun he => h (he ▸ hkey)
  unfold FormRule.unwrapRetries
  split
  · split
    · exact Fields.get?_insert_of_ne fields _ hne
    · rfl
  · rfl

/-- The form of a type whose transforms are apart from its names has the same names. -/
theorem toForm {t : NodeType} (h : t.apart = true) (fields : Fields) :
    t.transitions.SameNames (t.form.toForm fields) fields := by
  unfold NodeType.apart at h
  unfold FormRule.toForm
  cases hform : t.form with
  | plain => exact refl
  | transforms places =>
    rw [hform] at h
    exact foldl_decode h fields
  | loop places =>
    rw [hform] at h
    obtain ⟨hplaces, haction⟩ := Bool.and_eq_true_iff.1 h
    exact (foldl_decode hplaces _).trans (unwrapRetries (of_decide_eq_true haction) fields)

end TransitionRule.SameNames

namespace Catalog

theorem mem_of_get? {c : Catalog} {name : String} {t : NodeType} (h : c.get? name = some t) :
    (name, t) ∈ c.entries := by
  obtain ⟨⟨other, t'⟩, he, rfl⟩ := Option.map_eq_some_iff.1 h
  obtain rfl : other = name := by simpa using List.find?_some he
  exact List.mem_of_find?_eq_some he

theorem apart_of_standard {name : String} {t : NodeType} (h : standard.get? name = some t) :
    t.apart = true := by
  have hall : standard.entries.all (·.2.apart) = true := by decide +kernel
  exact List.all_eq_true.1 hall _ (mem_of_get? h)

end Catalog

end Workflow
