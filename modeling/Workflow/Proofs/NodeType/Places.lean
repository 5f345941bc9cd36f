import Workflow.Proofs.NodeType.Changes
import Workflow.Proofs.Transform.Inverse

/-!
# Transforms at several places

A type may keep several transforms in one record or in the entries of one list. As long as no place
is listed twice and none of them is the field that another one is in
(`TransformPlace.Independent`), what is done at one place is neither seen nor undone at another
(`TransformPlace.commute_of_ne`, `TransformPlace.transforms_alter`). So encoding takes back what
decoding did at all places (`FormRule.ofForm_onTransforms`). `Fields.normalAt` tells in one pass over
the fields what they become (`FormRule.transforms_reencoded`).
-/

namespace Workflow

/-! ### Transforms -/

namespace Fields

/-- The value for a selection under a key; `path` names the field in an error. -/
def encodedAt (path : String) (v : Json) : Except CodecError (Option Json) :=
  match Transform.encodeValue v with
  | .ok v? => .ok v?
  | .error f => .error ⟨path, f⟩

theorem encodeAt_eq_alterM (fields : Fields) (key path : String) :
    fields.encodeAt key path = fields.alterM (encodedAt path) key := by
  unfold encodeAt alterM
  cases fields.get? key with
  | none => rfl
  | some v =>
    simp only [encodedAt]
    cases Transform.encodeValue v <;> rfl

/-- A transform that was decoded is encoded to its normal form. -/
theorem encodeAt_alter {fields : Fields} (hnd : fields.keys.Nodup) {key : String}
    (hr : ∀ v, fields.get? key = some v → Transform.ReadsBack v) (path : String) :
    (fields.alter Transform.decodeValue key).encodeAt key path
      = .ok (fields.alter Transform.normal key) := by
  rw [encodeAt_eq_alterM]
  refine alterM_alter hnd (fun v w hv hw => ?_) fun v _ hw =>
    Transform.normal_of_decodeValue_eq_none hw
  rw [encodedAt, Transform.encodeValue_of_decodeValue hw (hr v hv)]

end Fields

namespace TransformPlace

/-- The value of the field of a place with its transforms encoded. -/
def encoded (id : String) : TransformPlace → Json → Except CodecError (Option Json)
  | field key, v => Fields.encodedAt (id ++ "." ++ key) v
  | nested outer key, .obj record => do
    return some (.obj (← Fields.encodeAt record key (id ++ "." ++ outer ++ "." ++ key)))
  | eachIn list key, .arr items => do
    return some (.arr (← eachRecord (fun index record =>
      record.encodeAt key (id ++ "." ++ list ++ "[" ++ toString index ++ "]." ++ key)) 0 items))
  | _, v => .ok (some v)

theorem encode_eq_alterM (id : String) (p : TransformPlace) (fields : Fields) :
    encode id fields p = fields.alterM (p.encoded id) p.outer := by
  have hself : ∀ {key : String} {v : Json}, fields.get? key = some v →
      (.ok fields : Except CodecError Fields) = fields.assign key <$> .ok (some v) := fun hv =>
    congrArg Except.ok (Fields.insert_of_get? hv).symm
  unfold encode apply Fields.alterM
  cases p with
  | field key => exact Fields.encodeAt_eq_alterM fields key _
  | nested outer key =>
    simp only [TransformPlace.outer]
    cases hv : fields.get? outer with
    | none => rfl
    | some v =>
      cases v with
      | obj record =>
        simp only [encoded]
        cases Fields.encodeAt record key (id ++ "." ++ outer ++ "." ++ key) <;> rfl
      | _ => exact hself hv
  | eachIn list key =>
    simp only [TransformPlace.outer]
    cases hv : fields.get? list with
    | none => rfl
    | some v =>
      cases v with
      | arr items =>
        simp only [encoded]
        cases eachRecord (fun index record => Fields.encodeAt record key
          (id ++ "." ++ list ++ "[" ++ toString index ++ "]." ++ key)) 0 items <;> rfl
      | _ => exact hself hv

/-- Changes of transforms are composed. -/
theorem bind_onTransform (p : TransformPlace) (φ ψ : Json → Option Json) {v : Json}
    (h : v.Keyed) : (p.onTransform φ v).bind (p.onTransform ψ)
      = p.onTransform (fun u => (φ u).bind ψ) v := by
  have hrecord : ∀ (key : String) {v : Json}, v.Keyed →
      (v.onRecord (Fields.alter φ key)).onRecord (Fields.alter ψ key)
        = v.onRecord (Fields.alter (fun u => (φ u).bind ψ) key) := by
    intro key v hv
    cases v with
    | obj record => exact congrArg Json.obj (Fields.alter_alter (Json.KeyedFields.nodup hv) φ ψ)
    | _ => rfl
  cases p with
  | field key => rfl
  | nested outer key => exact congrArg some (hrecord key h)
  | eachIn list key =>
    refine congrArg some ((Json.onItems_onItems _ _ v).trans ?_)
    cases v with
    | arr items =>
      refine congrArg Json.arr (List.map_congr_left fun v hv => ?_)
      exact hrecord key (Json.keyedItems_iff.1 h v hv)
    | _ => rfl

theorem eachRecord_encodeAt_alter {key : String} {items : List Json} (h : Json.KeyedItems items)
    (hr : ∀ v ∈ items, ∀ u, v.fieldsOf.get? key = some u → Transform.ReadsBack u)
    (pathOf : Nat → String) (index : Nat) :
    eachRecord (fun i record => record.encodeAt key (pathOf i)) index
        (items.map (Json.onRecord (Fields.alter Transform.decodeValue key)))
      = .ok (items.map (Json.onRecord (Fields.alter Transform.normal key))) := by
  induction items generalizing index with
  | nil => rfl
  | cons v rest ih =>
    have hrest := ih h.2 (fun w hw => hr w (List.mem_cons_of_mem _ hw)) (index + 1)
    cases v with
    | obj record =>
      have hfirst := Fields.encodeAt_alter (Json.KeyedFields.nodup h.1)
        (hr _ List.mem_cons_self) (pathOf index)
      simp only [List.map_cons, Json.onRecord, eachRecord, hfirst, hrest, bind, Except.bind, pure,
        Except.pure]
    | _ =>
      simp only [List.map_cons, Json.onRecord, eachRecord, hrest, bind, Except.bind, pure,
        Except.pure]

/-- Encoding what is shown for a place gives the normal form. -/
theorem encoded_of_decoded (id : String) {p : TransformPlace} {v w : Json} (hkeyed : v.Keyed)
    (hr : ∀ u ∈ p.values v, Transform.ReadsBack u)
    (h : p.onTransform Transform.decodeValue v = some w) :
    p.encoded id w = .ok (p.onTransform Transform.normal v) := by
  cases p with
  | field key =>
    simp only [encoded, Fields.encodedAt,
      Transform.encodeValue_of_decodeValue h (hr v List.mem_cons_self)]
    rfl
  | nested outer key =>
    obtain rfl := Option.some.inj h
    cases v with
    | obj record =>
      have hencode := Fields.encodeAt_alter (Json.KeyedFields.nodup hkeyed)
        (fun u hu => hr u (Option.mem_toList.2 hu)) (id ++ "." ++ outer ++ "." ++ key)
      simp only [Json.onRecord, encoded, hencode]
      rfl
    | _ => rfl
  | eachIn list key =>
    obtain rfl := Option.some.inj h
    cases v with
    | arr items =>
      have hencode : ∀ pathOf : Nat → String, eachRecord (fun i record =>
          record.encodeAt key (pathOf i)) 0
            (items.map (Json.onRecord (Fields.alter Transform.decodeValue key)))
          = .ok (items.map (Json.onRecord (Fields.alter Transform.normal key))) := fun pathOf =>
        eachRecord_encodeAt_alter hkeyed
          (fun v hv u hu => hr u (List.mem_filterMap.2 ⟨v, hv, hu⟩)) pathOf 0
      simp only [Json.onItems, encoded, hencode]
      rfl
    | _ => rfl

theorem normal_of_decoded_eq_none {p : TransformPlace} {v : Json}
    (h : p.onTransform Transform.decodeValue v = none) :
    p.onTransform Transform.normal v = none := by
  cases p with
  | field key => exact Transform.normal_of_decodeValue_eq_none h
  | _ => cases h

end TransformPlace

namespace FormRule

theorem ofForm_eq_alterM (r : FormRule) (id : String) (form : Fields) :
    r.ofForm id form
      = r.places.foldlM (fun acc p => acc.alterM (p.encoded id) p.outer) form := by
  rw [ofForm_eq]
  refine congrArg (fun step => r.places.foldlM step form) (funext fun acc => funext fun p => ?_)
  exact TransformPlace.encode_eq_alterM id p acc

end FormRule

/-! ### Independent places -/

namespace TransformPlace

/-- No place is listed twice, and no place is the field that another one is in. -/
structure Independent (places : List TransformPlace) : Prop where
  nodup : places.Nodup
  outer : ∀ p ∈ places, ∀ q ∈ places, p = .field q.outer → p = q

instance (places : List TransformPlace) : Decidable (Independent places) :=
  decidable_of_iff (places.Nodup ∧ ∀ p ∈ places, ∀ q ∈ places, p = .field q.outer → p = q)
    ⟨fun h => ⟨h.1, h.2⟩, fun h => ⟨h.nodup, h.outer⟩⟩

theorem Independent.tail {p : TransformPlace} {rest : List TransformPlace}
    (h : Independent (p :: rest)) : Independent rest where
  nodup := (List.nodup_cons.1 h.nodup).2
  outer q hq s hs := h.outer q (List.mem_cons_of_mem _ hq) s (List.mem_cons_of_mem _ hs)

/-- Two places that do not see each other. -/
structure Beside (p q : TransformPlace) : Prop where
  ne : p ≠ q
  left : p ≠ .field q.outer
  right : q ≠ .field p.outer

theorem Beside.symm {p q : TransformPlace} (h : p.Beside q) : q.Beside p :=
  ⟨h.ne.symm, h.right, h.left⟩

theorem Independent.beside {p : TransformPlace} {rest : List TransformPlace}
    (h : Independent (p :: rest)) {q : TransformPlace} (hq : q ∈ rest) : p.Beside q := by
  have hne : p ≠ q := fun he => (List.nodup_cons.1 h.nodup).1 (he ▸ hq)
  have hmem : q ∈ p :: rest := List.mem_cons_of_mem _ hq
  exact ⟨hne, fun he => hne (h.outer p List.mem_cons_self q hmem he),
    fun he => hne (h.outer q hmem p List.mem_cons_self he).symm⟩

/-- Places in different fields are independent of one another. -/
theorem independent_of_nodup {places : List TransformPlace} (h : (places.map outer).Nodup) :
    Independent places where
  nodup := h.of_map outer
  outer p hp q hq he := by
    refine List.inj_on_of_nodup_map h hp hq ?_
    rw [he]
    rfl

/-- Changes at two places can be made in either order. -/
theorem commute_of_ne {p q : TransformPlace} (h : p.Beside q) (φ ψ : Json → Option Json) :
    Fields.Commute (p.outer, p.onTransform φ) (q.outer, q.onTransform ψ) := by
  by_cases ho : p.outer = q.outer
  · cases p with
    | field key => exact absurd (congrArg field ho) h.left
    | nested outer key =>
      cases q with
      | field key' => exact absurd (congrArg field ho.symm) h.right
      | nested outer' key' =>
        obtain rfl : outer = outer' := ho
        have hkey : key ≠ key' := fun he => h.ne (he ▸ rfl)
        exact .of_comp (Json.onRecord_onRecord_comm (Fields.alter_comm hkey φ ψ)) outer
      | eachIn list key' =>
        obtain rfl : outer = list := ho
        exact .of_comp (fun v => by cases v <;> rfl) outer
    | eachIn list key =>
      cases q with
      | field key' => exact absurd (congrArg field ho.symm) h.right
      | nested outer key' =>
        obtain rfl : list = outer := ho
        exact .of_comp (fun v => by cases v <;> rfl) list
      | eachIn list' key' =>
        obtain rfl : list = list' := ho
        have hkey : key ≠ key' := fun he => h.ne (he ▸ rfl)
        refine .of_comp (fun v => ?_) list
        rw [Json.onItems_onItems, Json.onItems_onItems]
        exact congrArg (Json.onItems · v)
          (funext (Json.onRecord_onRecord_comm (Fields.alter_comm hkey φ ψ)))
  · exact .of_ne ho

/-- A change that keeps records keyed does so at every place. -/
theorem keyed_onTransform {φ : Json → Option Json}
    (hφ : ∀ v w, v.Keyed → φ v = some w → w.Keyed) {p : TransformPlace} {v w : Json}
    (hv : v.Keyed) (h : p.onTransform φ v = some w) : w.Keyed := by
  have halter : ∀ {key : String} {v : Json}, v.Keyed →
      (v.onRecord (Fields.alter φ key)).Keyed := by
    intro key v hv
    cases v with
    | obj record =>
      show Json.KeyedFields (Fields.alterAll [(key, φ)] record)
      refine Fields.keyed_alterAll hv fun c hc u w hu hw => ?_
      obtain rfl := List.mem_singleton.1 hc
      exact hφ u w hu hw
    | _ => exact hv
  cases p with
  | field key => exact hφ v w hv h
  | nested outer key =>
    obtain rfl := Option.some.inj h
    exact halter hv
  | eachIn list key =>
    obtain rfl := Option.some.inj h
    cases v with
    | arr items =>
      refine Json.keyedItems_iff.2 fun u hu => ?_
      obtain ⟨item, hitem, rfl⟩ := List.mem_map.1 hu
      exact halter (Json.keyedItems_iff.1 hv item hitem)
    | _ => exact hv

theorem keyed_alterAll {φ : Json → Option Json} (hφ : ∀ v w, v.Keyed → φ v = some w → w.Keyed)
    (places : List TransformPlace) {fields : Fields} (h : Json.KeyedFields fields) :
    Json.KeyedFields (fields.alterAll (places.map fun p => (p.outer, p.onTransform φ))) := by
  refine Fields.keyed_alterAll h fun c hc v w hv hw => ?_
  obtain ⟨p, -, rfl⟩ := List.mem_map.1 hc
  exact keyed_onTransform hφ hv hw

/-- The transforms that fields hold at a place. -/
def transforms (p : TransformPlace) (fields : Fields) : List Json :=
  (fields.get? p.outer).toList.flatMap p.values

/-- A change at another place leaves the transforms of a place. -/
theorem transforms_alter {p q : TransformPlace} (h : p.Beside q) (φ : Json → Option Json)
    (fields : Fields) :
    p.transforms (fields.alter (q.onTransform φ) q.outer) = p.transforms fields := by
  have hrecord : ∀ {key key' : String}, key ≠ key' → ∀ v : Json,
      (v.onRecord (Fields.alter φ key')).fieldsOf.get? key = v.fieldsOf.get? key := by
    intro key key' hne v
    cases v with
    | obj record => exact Fields.get?_alter_of_ne φ hne
    | _ => rfl
  unfold transforms
  by_cases ho : p.outer = q.outer
  · have hvalues : ∃ f : Json → Json, (∀ v, q.onTransform φ v = some (f v)) ∧
        ∀ v, p.values (f v) = p.values v := by
      cases p with
      | field key => exact absurd (congrArg field ho) h.left
      | nested outer key =>
        cases q with
        | field key' => exact absurd (congrArg field ho.symm) h.right
        | nested outer' key' =>
          obtain rfl : outer = outer' := ho
          have hkey : key ≠ key' := fun he => h.ne (he ▸ rfl)
          exact ⟨_, fun _ => rfl, fun v => congrArg Option.toList (hrecord hkey v)⟩
        | eachIn list key' => exact ⟨_, fun _ => rfl, fun v => by cases v <;> rfl⟩
      | eachIn list key =>
        cases q with
        | field key' => exact absurd (congrArg field ho.symm) h.right
        | nested outer key' => exact ⟨_, fun _ => rfl, fun v => by cases v <;> rfl⟩
        | eachIn list' key' =>
          obtain rfl : list = list' := ho
          have hkey : key ≠ key' := fun he => h.ne (he ▸ rfl)
          refine ⟨_, fun _ => rfl, fun v => ?_⟩
          cases v with
          | arr items =>
            simp only [values, Json.onItems, Json.arr?, Option.getD_some, List.filterMap_map]
            exact List.filterMap_congr fun v _ => hrecord hkey v
          | _ => rfl
    obtain ⟨f, hf, hvalues⟩ := hvalues
    rw [show q.onTransform φ = fun v => some (f v) from funext hf, ho, Fields.get?_alter_some]
    cases fields.get? q.outer with
    | none => rfl
    | some v => simp [hvalues]
  · rw [Fields.get?_alter_of_ne _ ho]

theorem transforms_alterAll {p : TransformPlace} {places : List TransformPlace}
    (h : ∀ q ∈ places, p.Beside q) (φ : Json → Option Json) (fields : Fields) :
    p.transforms (fields.alterAll (places.map fun q => (q.outer, q.onTransform φ)))
      = p.transforms fields := by
  induction places generalizing fields with
  | nil => rfl
  | cons q rest ih =>
    exact (ih (fun q hq => h q (List.mem_cons_of_mem _ hq)) _).trans
      (transforms_alter (h q List.mem_cons_self) φ fields)

theorem alter_alterAll {p : TransformPlace} {places : List TransformPlace}
    (h : ∀ q ∈ places, p.Beside q) (φ ψ : Json → Option Json) (fields : Fields) :
    (fields.alterAll (places.map fun q => (q.outer, q.onTransform ψ))).alter (p.onTransform φ)
        p.outer
      = (fields.alter (p.onTransform φ) p.outer).alterAll
          (places.map fun q => (q.outer, q.onTransform ψ)) := by
  have hcommute : ∀ c ∈ [(p.outer, p.onTransform φ)],
      ∀ d ∈ places.map fun q => (q.outer, q.onTransform ψ), Fields.Commute c d := by
    intro c hc d hd
    obtain rfl := List.mem_singleton.1 hc
    obtain ⟨q, hq, rfl⟩ := List.mem_map.1 hd
    exact commute_of_ne (h q hq) φ ψ
  exact Fields.alterAll_comm hcommute fields

/-- At one place, encoding takes back what decoding did. -/
theorem alterM_encoded (id : String) {p : TransformPlace} {fields : Fields}
    (hkeyed : Json.KeyedFields fields) (hr : ∀ v ∈ p.transforms fields, Transform.ReadsBack v) :
    (fields.alter (p.onTransform Transform.decodeValue) p.outer).alterM (p.encoded id) p.outer
      = .ok (fields.alter (p.onTransform Transform.normal) p.outer) := by
  refine Fields.alterM_alter hkeyed.nodup (fun v w hv hw => ?_) fun v _ hw =>
    normal_of_decoded_eq_none hw
  refine encoded_of_decoded id (hkeyed.of_get? hv) (fun u hu => hr u ?_) hw
  exact List.mem_flatMap.2 ⟨v, Option.mem_toList.2 hv, hu⟩

end TransformPlace

namespace FormRule

open TransformPlace

/-- Encoding what is shown of fields gives their normal form. -/
theorem ofForm_onTransforms {r : FormRule} (h : Independent r.places) {fields : Fields}
    (hkeyed : Json.KeyedFields fields)
    (hr : ∀ p ∈ r.places, ∀ v ∈ p.transforms fields, Transform.ReadsBack v) (id : String) :
    r.ofForm id (r.onTransforms Transform.decodeValue fields)
      = .ok (r.onTransforms Transform.normal fields) := by
  rw [ofForm_eq_alterM]
  unfold onTransforms
  generalize r.places = places at h hr
  induction places generalizing fields with
  | nil => rfl
  | cons p rest ih =>
    have hbeside : ∀ q ∈ rest, p.Beside q := fun q hq => h.beside hq
    -- The first place is encoded while the transforms at all others are still decoded.
    have hp : ∀ v ∈ p.transforms (fields.alterAll (rest.map fun q =>
        (q.outer, q.onTransform Transform.decodeValue))), Transform.ReadsBack v := fun v hv =>
      hr p List.mem_cons_self v (transforms_alterAll hbeside _ fields ▸ hv)
    have hfirst := alterM_encoded id
      (keyed_alterAll (fun _ _ => Transform.keyed_decodeValue) rest hkeyed) hp
    rw [alter_alterAll hbeside, alter_alterAll hbeside] at hfirst
    rw [List.foldlM_cons]
    refine Except.bind_eq_ok_iff.2 ⟨_, hfirst, ?_⟩
    refine ih (keyed_alterAll (fun _ _ => Transform.keyed_normal) [p] hkeyed) h.tail
      fun q hq v hv => ?_
    have hv : v ∈ q.transforms (fields.alter (p.onTransform Transform.normal) p.outer) := hv
    rw [transforms_alter (hbeside q hq).symm] at hv
    exact hr q (List.mem_cons_of_mem _ hq) v hv

end FormRule

/-! ### In one pass -/

/-- The record with the transforms under some keys in normal form. -/
def Fields.normalUnder (isTransform : String → Bool) (fields : Fields) : Fields :=
  fields.filterMap fun (key, v) =>
    if isTransform key then (Transform.normal v).map (key, ·) else some (key, v)

/-- The value of a field with the transforms in it in normal form. -/
def Json.normalInside (places : List TransformPlace) (outer : String) : Json → Json
  | .obj record => .obj (Fields.normalUnder (fun key => .nested outer key ∈ places) record)
  | .arr items =>
    .arr (items.map (onRecord (Fields.normalUnder fun key => .eachIn outer key ∈ places)))
  | v => v

/-- The fields with the transforms at some places in normal form. Nothing else changes, and no key
changes its place. -/
def Fields.normalAt (places : List TransformPlace) (fields : Fields) : Fields :=
  fields.filterMap fun (key, v) =>
    if .field key ∈ places then (Transform.normal v).map (key, ·)
    else some (key, v.normalInside places key)

namespace Fields

variable {fields : Fields}

theorem alter_eq_filterMap (h : fields.keys.Nodup) (φ : Json → Option Json) (key : String) :
    fields.alter φ key
      = fields.filterMap fun e => if e.1 = key then (φ e.2).map (e.1, ·) else some e := by
  induction fields with
  | nil => rfl
  | cons e rest ih =>
    obtain ⟨k, v⟩ := e
    obtain ⟨hnot, hrest⟩ := List.nodup_cons.1 h
    by_cases hk : k = key
    · have hself : rest.filterMap (fun e => if e.1 = key then (φ e.2).map (e.1, ·) else some e)
          = rest := by
        conv_rhs => rw [← List.filterMap_some (l := rest)]
        refine List.filterMap_congr fun e he => if_neg fun hek => hnot ?_
        exact List.mem_map.2 ⟨e, he, hek.trans hk.symm⟩
      simp only [alter, hk, if_true, List.filterMap_cons, hself]
      cases φ v <;> rfl
    · simp only [alter, hk, if_false, List.filterMap_cons, ih hrest]

/-- One more key with a transform. -/
theorem normalUnder_alter {isTransform : String → Bool} {key : String} (h : fields.keys.Nodup)
    (hkey : isTransform key = false) :
    (fields.alter Transform.normal key).normalUnder isTransform
      = fields.normalUnder fun k => k = key || isTransform k := by
  rw [alter_eq_filterMap h, normalUnder, List.filterMap_filterMap, normalUnder]
  refine List.filterMap_congr fun e _ => ?_
  by_cases hk : e.1 = key
  · simp only [hk, if_true, decide_true, Bool.true_or]
    cases Transform.normal e.2 <;> simp [hkey]
  · simp [hk]

theorem normalUnder_false (fields : Fields) : fields.normalUnder (fun _ => false) = fields := by
  simp [normalUnder]

end Fields

namespace Json

open TransformPlace

theorem normalInside_congr {places places' : List TransformPlace} (outer : String)
    (hnested : ∀ key, .nested outer key ∈ places ↔ .nested outer key ∈ places')
    (heach : ∀ key, .eachIn outer key ∈ places ↔ .eachIn outer key ∈ places') (v : Json) :
    v.normalInside places outer = v.normalInside places' outer := by
  cases v <;> simp only [normalInside, hnested, heach]

/-- Nothing changes in a field that no place is in. -/
theorem normalInside_of_ne {places : List TransformPlace} {outer : String}
    (h : ∀ p ∈ places, p.outer ≠ outer) (v : Json) : v.normalInside places outer = v := by
  have hnested : ∀ key, .nested outer key ∉ places := fun key hmem => h _ hmem rfl
  have heach : ∀ key, .eachIn outer key ∉ places := fun key hmem => h _ hmem rfl
  cases v with
  | obj record => simp [normalInside, hnested, Fields.normalUnder_false]
  | arr items =>
    have hid : onRecord (Fields.normalUnder fun _ => false) = id := funext fun v => by
      cases v <;> simp [onRecord, Fields.normalUnder_false]
    simp [normalInside, heach, hid]
  | _ => rfl

/-- A record with one more transform. -/
theorem onRecord_normalUnder_alter (isTransform : String → Bool) {key : String}
    (hkey : isTransform key = false) {v : Json} (hv : v.Keyed) :
    (v.onRecord (Fields.alter Transform.normal key)).onRecord (Fields.normalUnder isTransform)
      = v.onRecord (Fields.normalUnder fun k => k = key || isTransform k) := by
  cases v with
  | obj record => exact congrArg obj (Fields.normalUnder_alter (KeyedFields.nodup hv) hkey)
  | _ => rfl

theorem normalInside_nested {outer key : String} {rest : List TransformPlace}
    (h : .nested outer key ∉ rest) {v : Json} (hv : v.Keyed) :
    (v.onRecord (Fields.alter Transform.normal key)).normalInside rest outer
      = v.normalInside (.nested outer key :: rest) outer := by
  cases v with
  | obj record =>
    have hrecord := onRecord_normalUnder_alter (fun k => .nested outer k ∈ rest)
      (decide_eq_false h) hv
    simpa [normalInside, onRecord] using hrecord
  | arr items => simp [normalInside, onRecord]
  | _ => rfl

theorem normalInside_eachIn {list key : String} {rest : List TransformPlace}
    (h : .eachIn list key ∉ rest) {v : Json} (hv : v.Keyed) :
    (v.onItems (onRecord (Fields.alter Transform.normal key))).normalInside rest list
      = v.normalInside (.eachIn list key :: rest) list := by
  cases v with
  | arr items =>
    have hitems : ∀ v ∈ items, _ := fun v hv' => onRecord_normalUnder_alter
      (fun k => .eachIn list k ∈ rest) (decide_eq_false h) (keyedItems_iff.1 hv v hv')
    simpa [normalInside, onItems] using hitems
  | obj record => simp [normalInside, onItems]
  | _ => rfl

end Json

namespace Fields

open TransformPlace

/-- One more place. -/
theorem normalAt_cons {p : TransformPlace} {rest : List TransformPlace}
    (h : Independent (p :: rest)) {fields : Fields} (hkeyed : Json.KeyedFields fields) :
    (fields.alter (p.onTransform Transform.normal) p.outer).normalAt rest
      = fields.normalAt (p :: rest) := by
  have hnot : p ∉ rest := (List.nodup_cons.1 h.nodup).1
  rw [alter_eq_filterMap hkeyed.nodup, normalAt, List.filterMap_filterMap, normalAt]
  refine List.filterMap_congr fun e he => ?_
  obtain ⟨k, v⟩ := e
  have hv : v.Keyed := (Json.keyedFields_iff.1 hkeyed).2 _ he
  by_cases hk : k = p.outer
  · subst hk
    simp only [if_true]
    cases p with
    | field key =>
      have hfield : ∀ q ∈ rest, q.outer ≠ key := fun q hq ho => (h.beside hq).left (ho ▸ rfl)
      simp only [onTransform, outer, List.mem_cons_self, if_true]
      cases Transform.normal v with
      | none => rfl
      | some w =>
        simp [hnot, Json.normalInside_of_ne hfield]
    | nested outer key =>
      have hfield : .field outer ∉ rest := fun hmem => (h.beside hmem).right rfl
      simp [onTransform, TransformPlace.outer, hfield, Json.normalInside_nested hnot hv]
    | eachIn list key =>
      have hfield : .field list ∉ rest := fun hmem => (h.beside hmem).right rfl
      simp [onTransform, TransformPlace.outer, hfield, Json.normalInside_eachIn hnot hv]
  · have hne : ∀ q : TransformPlace, q.outer = k → (q ∈ p :: rest ↔ q ∈ rest) := by
      intro q hq
      rw [List.mem_cons, or_iff_right]
      rintro rfl
      exact hk hq.symm
    have hinside := Json.normalInside_congr k
      (fun key => hne (.nested k key) rfl) (fun key => hne (.eachIn k key) rfl) v
    simp [hk, hne (.field k) rfl, hinside]

/-- Transforms that are put in normal form place by place are so in one pass. -/
theorem alterAll_normal {places : List TransformPlace} (h : Independent places) {fields : Fields}
    (hkeyed : Json.KeyedFields fields) :
    fields.alterAll (places.map fun p => (p.outer, p.onTransform Transform.normal))
      = fields.normalAt places := by
  induction places generalizing fields with
  | nil => simp [normalAt, alterAll, Json.normalInside_of_ne]
  | cons p rest ih =>
    rw [← normalAt_cons h hkeyed]
    exact ih h.tail (TransformPlace.keyed_alterAll (fun _ _ => Transform.keyed_normal) [p] hkeyed)

end Fields

namespace FormRule

open TransformPlace

/-- Fields that become a form and then fields again are back as they were but for the transforms at
the places of the rule, each of which is in normal form: it is gone when it is null, the empty
string or the empty record, and a script has no blanks behind its closing mark. The order of keys
and the other items of lists stay. Values that are shown as YAML text have to be read back from it.
The places of every type of the standard catalog are of this kind. -/
theorem transforms_reencoded :
    (∀ {places : List TransformPlace}, Independent places → ∀ {fields : Fields},
      Json.KeyedFields fields →
      (∀ p ∈ places, ∀ v ∈ p.transforms fields,
        v.IsStructured → Yaml.toJson? (Yaml.print v) = some v) →
      ∀ id, (transforms places).ofForm id ((transforms places).toForm fields)
        = .ok (fields.normalAt places)) ∧
      ∀ name t, Catalog.standard.get? name = some t → Independent t.form.places := by
  refine ⟨fun {places} h {fields} hkeyed hreads id => ?_, fun name t ht => ?_⟩
  · rw [toForm_eq_onTransforms]
    refine (ofForm_onTransforms (r := .transforms places) h hkeyed
      (fun p hp v hv => Transform.readsBack_of_toJson? (hreads p hp v hv)) id).trans ?_
    exact congrArg Except.ok (Fields.alterAll_normal h hkeyed)
  · exact independent_of_nodup (NodeType.nodup_places (Catalog.separate_of_standard ht))

/-- Several transforms in one record and in the records of one list. -/
def callPlaces : List TransformPlace :=
  [.eachIn "steps" "when", .field "transform", .nested "call" "input", .nested "call" "output",
    .eachIn "steps" "input"]

/-- Fields with a transform of each kind, some of them blank. -/
def callFields : Fields :=
  [("transform", .str "js(x) "),
    ("call", .obj [("output", .str ""), ("name", .str "f"), ("input", .arr [.str "a", .null])]),
    ("steps", .arr [.null, .obj [("when", .obj []), ("input", .str "q"), ("id", .str "s")]])]

theorem callFields_reencoded :
    TransformPlace.Independent callPlaces ∧ Json.KeyedFields callFields ∧
      (∀ p ∈ callPlaces, ∀ v ∈ p.transforms callFields,
        v.IsStructured → Yaml.toJson? (Yaml.print v) = some v) ∧
      (transforms callPlaces).ofForm "a" ((transforms callPlaces).toForm callFields) = .ok
        [("transform", .str "js(x)"),
          ("call", .obj [("name", .str "f"), ("input", .arr [.str "a", .null])]),
          ("steps", .arr [.null, .obj [("input", .str "q"), ("id", .str "s")]])] := by
  have hplaces : TransformPlace.Independent callPlaces := by decide
  have hkeyed : Json.KeyedFields callFields := by decide
  have hreads : ∀ p ∈ callPlaces, ∀ v ∈ p.transforms callFields,
      v.IsStructured → Yaml.toJson? (Yaml.print v) = some v := by
    decide +kernel
  refine ⟨hplaces, hkeyed, hreads, ?_⟩
  exact (transforms_reencoded.1 hplaces hkeyed hreads "a").trans (by decide +kernel)

end FormRule

end Workflow
