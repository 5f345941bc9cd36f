import Workflow.Proofs.Json.Alike
import Workflow.Proofs.NodeType.Forms
import Workflow.Proofs.Transform.Normal

/-!
# Fields in normal form

A form shows transforms as selections. When they are encoded again, the fields are back as they were
but for what `TransformPlace.normal` tells: each transform is in its normal form. This file proves
it for one place at a time (`TransformPlace.encode_eq_ok`), where a place is the value of one field.
-/

namespace Workflow

namespace Json

/-- Changes a list as a whole; any other value stays as it is. -/
def onList (f : List Json → List Json) : Json → Json
  | .arr items => .arr (f items)
  | v => v

/-- Changes the items of a list; any other value stays as it is. -/
def onItems (f : Json → Json) : Json → Json
  | .arr items => .arr (items.map f)
  | v => v

theorem onItems_of_ne {f : Json → Json} {v : Json} (h : ∀ items, v ≠ .arr items) :
    v.onItems f = v := by
  cases v with
  | arr items => exact absurd rfl (h items)
  | _ => rfl

theorem onItems_onItems (f g : Json → Json) (v : Json) :
    (v.onItems g).onItems f = v.onItems fun item => f (g item) := by
  cases v with
  | arr items =>
    rw [onItems, onItems, onItems, List.map_map]
    rfl
  | _ => rfl

theorem map_onItems_onItems (f g : Json → Json) (v? : Option Json) :
    (v?.map (onItems g)).map (onItems f) = v?.map (onItems fun item => f (g item)) := by
  rw [Option.map_map]
  exact congrFun (congrArg Option.map (funext fun v => onItems_onItems f g v)) v?

theorem onRecord_of_ne {f : Fields → Fields} {v : Json} (h : ∀ record, v ≠ .obj record) :
    v.onRecord f = v := by
  cases v with
  | obj record => exact absurd rfl (h record)
  | _ => rfl

end Json

theorem TransitionSlot.puts_changeItems {fields : Fields} (h : fields.keys.Nodup)
    (f : List Json → List Json) (list : String) :
    fields.Puts list ((fields.get? list).map fun v => match v with
      | .arr items => .arr (f items)
      | v => v) (changeItems f fields list) := by
  unfold changeItems
  cases hv : fields.get? list with
  | none => exact Fields.puts_self h hv
  | some v =>
    cases v with
    | arr items => exact Fields.puts_insert h list _
    | _ => exact Fields.puts_self h hv

theorem TransitionSlot.puts_changeItems_map {fields : Fields} (h : fields.keys.Nodup)
    (f : Json → Json) (list : String) :
    fields.Puts list ((fields.get? list).map (Json.onItems f))
      (changeItems (List.map f) fields list) := by
  have hputs := puts_changeItems h (List.map f) list
  cases hv : fields.get? list with
  | none => rwa [hv] at hputs
  | some v =>
    rw [hv] at hputs
    cases v <;> exact hputs

namespace TransformPlace

/-- The value of the field of a place with its transforms decoded. -/
def decoded : TransformPlace → Json → Option Json
  | field _, v => Transform.decodeValue v
  | nested _ key, v => some (v.onRecord (Fields.decodeAt · key))
  | eachIn _ key, v => some (v.onItems (Json.onRecord (Fields.decodeAt · key)))

/-- The value of the field of a place with its transforms in normal form. -/
def normal : TransformPlace → Json → Option Json
  | field _, v => Transform.normal v
  | nested _ key, v => some (v.onRecord (Fields.alter Transform.normal key))
  | eachIn _ key, v => some (v.onItems (Json.onRecord (Fields.alter Transform.normal key)))

/-- The transforms in the value of the field of a place. -/
def values : TransformPlace → Json → List Json
  | field _, v => [v]
  | nested _ key, v => (v.fieldsOf.get? key).toList
  | eachIn _ key, v => (v.arr?.getD []).filterMap fun item => item.fieldsOf.get? key

theorem puts_decode {fields : Fields} (h : fields.keys.Nodup) (p : TransformPlace) :
    fields.Puts p.outer ((fields.get? p.outer).bind p.decoded) (decode fields p) := by
  cases p with
  | field key => exact Fields.puts_decodeAt h key
  | nested outer key =>
    rw [decode_nested]
    show fields.Puts outer ((fields.get? outer).bind (decoded (.nested outer key))) _
    cases hv : fields.get? outer with
    | none => exact Fields.puts_self h hv
    | some v =>
      cases v with
      | obj record => exact Fields.puts_insert h outer _
      | _ => exact Fields.puts_self h hv
  | eachIn list key =>
    rw [decode_eachIn]
    have hputs :=
      TransitionSlot.puts_changeItems_map h (Json.onRecord (Fields.decodeAt · key)) list
    show fields.Puts list ((fields.get? list).bind (decoded (.eachIn list key))) _
    cases hv : fields.get? list <;> rwa [hv] at hputs

/-! ### Encoding what is shown -/

/-- The form shows a record with the transform under a key decoded; the order of its keys does not
matter, and only a value that is no record is shown as it is. -/
inductive ShowsRecord (key : String) : Json → Json → Prop
  | record {form fields : Fields} :
      form.keys.Nodup → Json.KeyedFields fields →
      form.get? key = (fields.get? key).bind Transform.decodeValue →
      (∀ k, k ≠ key → form.get? k = fields.get? k) →
      (∀ v, fields.get? key = some v → Transform.ReadsBack v) →
      ShowsRecord key (.obj form) (.obj fields)
  | other {v : Json} : v.Keyed → (∀ record, v ≠ .obj record) → ShowsRecord key v v

/-- The form shows the value of the field of a place with its transforms decoded. -/
inductive Shows : TransformPlace → Option Json → Option Json → Prop
  | absent {p : TransformPlace} : Shows p none none
  | field {key : String} {v : Json} :
      v.Keyed → Transform.ReadsBack v → Shows (.field key) (Transform.decodeValue v) (some v)
  | nested {outer key : String} {v w : Json} :
      ShowsRecord key w v → Shows (.nested outer key) (some w) (some v)
  | eachIn {list key : String} {items shown : List Json} :
      List.Forall₂ (ShowsRecord key) shown items →
      Shows (.eachIn list key) (some (.arr shown)) (some (.arr items))
  | noList {list key : String} {v : Json} :
      v.Keyed → (∀ items, v ≠ .arr items) → Shows (.eachIn list key) (some v) (some v)

theorem encodeAt_of_showsRecord {key : String} {form fields : Fields}
    (h : ShowsRecord key (.obj form) (.obj fields)) (path : String) :
    ∃ result, form.encodeAt key path = .ok result ∧
      Json.Alike (.obj result) (.obj (fields.alter Transform.normal key)) := by
  cases h with
  | other _ hne => exact absurd rfl (hne form)
  | record hnd hkeyed hget hother hr =>
    obtain ⟨result, hresult, hputs⟩ := Fields.encodeAt_eq_ok hnd hget hr path
    have hnormal := Fields.puts_alter hkeyed.nodup Transform.normal key
    refine ⟨result, hresult, (Json.alike_obj_iff hputs.nodup).2 fun k => ?_⟩
    by_cases hk : k = key
    · subst hk
      rw [hputs.self, hnormal.self]
      refine Json.alikeOption_refl fun w hw => ?_
      obtain ⟨v, hv, hw⟩ := Option.bind_eq_some_iff.1 hw
      exact Transform.keyed_normal (hkeyed.of_get? hv) hw
    · rw [hputs.other k hk, hnormal.other k hk, hother k hk]
      exact Json.alikeOption_refl fun _ hv => hkeyed.of_get? hv

theorem ShowsRecord.cases_left {key : String} {w v : Json} (h : ShowsRecord key w v) :
    (∃ form fields, w = .obj form ∧ v = .obj fields) ∨
      w = v ∧ v.Keyed ∧ ∀ record, v ≠ .obj record := by
  cases h with
  | record => exact .inl ⟨_, _, rfl, rfl⟩
  | other hkeyed hne => exact .inr ⟨rfl, hkeyed, hne⟩

theorem eachRecord_encodeAt {key : String} {shown items : List Json}
    (h : List.Forall₂ (ShowsRecord key) shown items) (pathOf : Nat → String) (index : Nat) :
    ∃ results, eachRecord (fun i record => record.encodeAt key (pathOf i)) index shown
        = Except.ok results ∧
      List.Forall₂ Json.Alike results
        (items.map (Json.onRecord (Fields.alter Transform.normal key))) := by
  induction h generalizing index with
  | nil => exact ⟨[], rfl, .nil⟩
  | @cons w v shown items hfirst _ ih =>
    obtain ⟨results, hresults, halike⟩ := ih (index + 1)
    rcases hfirst.cases_left with ⟨form, fields, rfl, rfl⟩ | ⟨rfl, hkeyed, hne⟩
    · obtain ⟨result, hresult, hfirst⟩ := encodeAt_of_showsRecord hfirst (pathOf index)
      refine ⟨.obj result :: results, ?_, .cons hfirst halike⟩
      simp only [eachRecord, hresult, hresults, bind, Except.bind, pure, Except.pure]
    · refine ⟨w :: results, ?_, .cons ?_ halike⟩
      · cases w with
        | obj record => exact absurd rfl (hne record)
        | _ => simp only [eachRecord, hresults, bind, Except.bind, pure, Except.pure]
      · rw [Json.onRecord_of_ne hne]
        exact Json.alike_refl hkeyed

/-- Encoding the value that a form shows for a place succeeds and gives its normal form. -/
theorem encode_eq_ok (id : String) {p : TransformPlace} {form : Fields} {v? : Option Json}
    (hnd : form.keys.Nodup) (h : p.Shows (form.get? p.outer) v?) :
    ∃ w? result, encode id form p = .ok result ∧ form.Puts p.outer w? result ∧
      Json.AlikeOption w? (v?.bind p.normal) := by
  generalize hw : form.get? p.outer = w at h
  cases h with
  | absent =>
    refine ⟨none, form, ?_, Fields.puts_self hnd hw, trivial⟩
    cases p with
    | field key =>
      have hw : form.get? key = none := hw
      simp only [encode, apply, Fields.encodeAt, hw]
    | nested outer key =>
      have hw : form.get? outer = none := hw
      simp only [encode, apply, hw]
      rfl
    | eachIn list key =>
      have hw : form.get? list = none := hw
      simp only [encode, apply, hw]
      rfl
  | @field key v hkeyed hr =>
    have hw : form.get? key = (some v).bind Transform.decodeValue := hw
    obtain ⟨result, hresult, hputs⟩ := Fields.encodeAt_eq_ok hnd hw
      (fun u hu => Option.some.inj hu ▸ hr) (id ++ "." ++ key)
    exact ⟨_, result, hresult, hputs,
      Json.alikeOption_refl fun u hu => Transform.keyed_normal hkeyed hu⟩
  | @nested outer key v w h =>
    have hw : form.get? outer = some w := hw
    rcases h.cases_left with ⟨record, fields, rfl, rfl⟩ | ⟨rfl, hkeyed, hne⟩
    · obtain ⟨result, hresult, halike⟩ :=
        encodeAt_of_showsRecord h (id ++ "." ++ outer ++ "." ++ key)
      refine ⟨_, form.insert outer (.obj result), ?_, Fields.puts_insert hnd outer _, halike⟩
      simp only [encode, apply, hw, hresult, bind, Except.bind, pure, Except.pure]
    · refine ⟨_, form, ?_, Fields.puts_self hnd hw, ?_⟩
      · simp only [encode, apply, hw]
        cases w with
        | obj record => exact absurd rfl (hne record)
        | _ => rfl
      · simp only [normal, Option.bind_some, Json.onRecord_of_ne hne]
        exact Json.alike_refl hkeyed
  | @eachIn list key items shown h =>
    have hw : form.get? list = some (.arr shown) := hw
    obtain ⟨results, hresults, halike⟩ := eachRecord_encodeAt h
      (fun index => id ++ "." ++ list ++ "[" ++ toString index ++ "]." ++ key) 0
    refine ⟨_, form.insert list (.arr results), ?_, Fields.puts_insert hnd list _, ?_⟩
    · simp only [encode, apply, hw, hresults, bind, Except.bind, pure, Except.pure]
    · exact Json.alikeItems_iff.2 halike
  | @noList list key v hkeyed hne =>
    have hw : form.get? list = some v := hw
    refine ⟨_, form, ?_, Fields.puts_self hnd hw, ?_⟩
    · simp only [encode, apply, hw]
      cases v with
      | arr items => exact absurd rfl (hne items)
      | _ => rfl
    · simp only [normal, Option.bind_some, Json.onItems_of_ne hne]
      exact Json.alike_refl hkeyed

/-! ### What is shown -/

/-- A record with the transform under a key decoded. -/
theorem showsRecord_decodeAt {key : String} {v : Json} (hkeyed : v.Keyed)
    (hr : ∀ u, v.fieldsOf.get? key = some u → Transform.ReadsBack u) :
    ShowsRecord key (v.onRecord (Fields.decodeAt · key)) v := by
  cases v with
  | obj record =>
    have hputs := Fields.puts_decodeAt (Json.KeyedFields.nodup hkeyed) key
    exact .record hputs.nodup hkeyed hputs.self hputs.other hr
  | _ => exact .other hkeyed nofun

/-- Decoding shows the value of the field of a place. -/
theorem shows_decoded {p : TransformPlace} {v? : Option Json}
    (hkeyed : ∀ v, v? = some v → v.Keyed)
    (hr : ∀ v, v? = some v → ∀ u ∈ p.values v, Transform.ReadsBack u) :
    p.Shows (v?.bind p.decoded) v? := by
  cases v? with
  | none => exact .absent
  | some v =>
    have hkeyed := hkeyed v rfl
    have hr := hr v rfl
    cases p with
    | field key => exact .field hkeyed (hr v List.mem_cons_self)
    | nested outer key =>
      exact .nested (showsRecord_decodeAt hkeyed fun u hu => hr u (Option.mem_toList.2 hu))
    | eachIn list key =>
      cases v with
      | arr items =>
        refine .eachIn (List.forall₂_map_left_iff.2 (List.forall₂_same.2 fun v hv => ?_))
        refine showsRecord_decodeAt (Json.keyedItems_iff.1 hkeyed v hv) fun u hu => ?_
        exact hr u (List.mem_filterMap.2 ⟨v, hv, hu⟩)
      | _ => exact .noList hkeyed nofun

end TransformPlace

end Workflow
