import Workflow.Proofs.NodeType.Names

/-!
# Fields that became a form and fields again

`NodeType.normal` says what is left of the fields of a state once they have been a form: what is no
name in the place of one is gone, the only retry policy of a loop stands for the list, and
transforms are in their normal form. The order of keys aside, everything else is back
(`NodeType.fields_restored`).
-/

namespace Workflow

/-! ### Retries -/

/-- An action with its only retry policy in place of the list. -/
def Json.unwrapRetries : Json → Json :=
  Json.onRecord fun action => match action.get? "retries" with
    | some (.arr [policy]) => action.insert "retries" policy
    | _ => action

theorem Json.keyed_unwrapRetries {v : Json} (h : v.Keyed) : v.unwrapRetries.Keyed := by
  cases v with
  | obj action =>
    have hkeyed : Json.KeyedFields action := h
    show Json.KeyedFields (match Fields.get? action "retries" with
      | some (.arr [policy]) => Fields.insert action "retries" policy
      | _ => action)
    split
    next policy hretries =>
      have hpolicy : Json.Keyed policy := (hkeyed.of_get? hretries).1
      exact hkeyed.insert "retries" hpolicy
    next => exact hkeyed
  | _ => exact h

namespace FormRule

/-- The places of the transforms. -/
def places : FormRule → List TransformPlace
  | plain => []
  | transforms places => places
  | loop places => places

/-- What is done to the fields before the transforms are decoded. -/
def prepare : FormRule → Fields → Fields
  | loop _, fields => unwrapRetries fields
  | _, fields => fields

/-- What `prepare` does to the value under a key. -/
def prepared (r : FormRule) (key : String) (v : Json) : Json :=
  match r with
  | loop _ => if key = "action" then v.unwrapRetries else v
  | _ => v

/-- The fields with all transforms in their normal form. -/
def normal (r : FormRule) (fields : Fields) : Fields :=
  r.places.foldl (fun acc p => acc.alter p.normal p.outer) (r.prepare fields)

theorem toForm_eq (r : FormRule) (fields : Fields) :
    r.toForm fields = r.places.foldl TransformPlace.decode (r.prepare fields) := by
  cases r <;> rfl

theorem ofForm_eq (r : FormRule) (id : String) (form : Fields) :
    r.ofForm id form = r.places.foldlM (TransformPlace.encode id) form := by
  cases r <;> rfl

theorem puts_unwrapRetries {fields : Fields} (h : fields.keys.Nodup) :
    fields.Puts "action" ((fields.get? "action").map Json.unwrapRetries)
      (unwrapRetries fields) := by
  unfold unwrapRetries
  cases hv : fields.get? "action" with
  | none => exact Fields.puts_self h hv
  | some v =>
    cases v with
    | obj action =>
      simp only [Option.map_some, Json.unwrapRetries, Json.onRecord]
      cases Fields.get? action "retries" with
      | none => exact Fields.puts_self h hv
      | some w =>
        cases w with
        | arr policies =>
          rcases policies with _ | ⟨policy, _ | ⟨_, _⟩⟩
          · exact Fields.puts_self h hv
          · exact Fields.puts_insert h "action" _
          · exact Fields.puts_self h hv
        | _ => exact Fields.puts_self h hv
    | _ => exact Fields.puts_self h hv

theorem nodup_prepare (r : FormRule) {fields : Fields} (h : fields.keys.Nodup) :
    (r.prepare fields).keys.Nodup := by
  cases r with
  | loop => exact (puts_unwrapRetries h).nodup
  | _ => exact h

theorem get?_prepare (r : FormRule) {fields : Fields} (h : fields.keys.Nodup) (key : String) :
    (r.prepare fields).get? key = (fields.get? key).map (r.prepared key) := by
  cases r with
  | loop places =>
    by_cases hk : key = "action"
    · subst hk
      exact (puts_unwrapRetries h).self
    · have hid : prepared (.loop places) key = id := funext fun v => if_neg hk
      rw [hid, Option.map_id]
      exact (puts_unwrapRetries h).other key hk
  | _ => exact (Option.map_id_apply).symm

theorem keyed_prepared (r : FormRule) (key : String) {v : Json} (h : v.Keyed) :
    (r.prepared key v).Keyed := by
  cases r with
  | loop =>
    simp only [prepared]
    split
    · exact Json.keyed_unwrapRetries h
    · exact h
  | _ => exact h

end FormRule

/-! ### Types -/

/-- A transform is not among the retries of an action. -/
def TransformPlace.keepsRetries : TransformPlace → Bool
  | field key => key ≠ "action"
  | nested outer key => outer ≠ "action" || key ≠ "retries"
  | eachIn .. => true

namespace NodeType

/-- Every transform is in a field of its own, apart from the retries. -/
def separate (t : NodeType) : Bool :=
  decide (t.form.places.map TransformPlace.outer).Nodup &&
    t.form.places.all TransformPlace.keepsRetries

theorem nodup_places {t : NodeType} (hseparate : t.separate = true) :
    (t.form.places.map TransformPlace.outer).Nodup :=
  of_decide_eq_true (Bool.and_eq_true_iff.1 hseparate).1

/-- What is left of the fields of a state once they have been a form. -/
def normal (t : NodeType) (fields : Fields) : Fields := t.form.normal (t.transitions.onlyNames fields)

/-- The transforms in the fields of a state. -/
def transforms (t : NodeType) (fields : Fields) : List Json :=
  t.form.places.flatMap fun p => (fields.get? p.outer).toList.flatMap p.values

end NodeType

theorem Catalog.separate_of_standard {name : String} {t : NodeType}
    (h : standard.get? name = some t) : t.separate = true := by
  have hall : standard.entries.all (·.2.separate) = true := by decide +kernel
  exact List.all_eq_true.1 hall _ (mem_of_get? h)

namespace TransformPlace

/-- Unwrapping the retries of an action keeps the transforms. -/
theorem values_prepared {r : FormRule} {p : TransformPlace} (h : p.keepsRetries = true) (v : Json) :
    p.values (r.prepared p.outer v) = p.values v := by
  cases r with
  | loop =>
    simp only [FormRule.prepared]
    split
    next haction =>
      cases v with
      | obj action =>
        cases p with
        | field key => exact absurd haction (of_decide_eq_true h)
        | nested outer key =>
          have hkey : key ≠ "retries" := by
            rcases Bool.or_eq_true_iff.1 h with h | h
            · exact absurd haction (of_decide_eq_true h)
            · exact of_decide_eq_true h
          simp only [values, Json.unwrapRetries, Json.onRecord, Json.fieldsOf, Json.obj?,
            Option.getD_some]
          split
          · rw [Fields.get?_insert_of_ne _ _ hkey]
          · rfl
        | eachIn list key => rfl
      | _ => rfl
    next => rfl
  | _ => rfl

/-- A place that is apart from the names is in no fixed slot, and in the entries of the list of
names only besides these. -/
theorem outer_of_apart {r : TransitionRule} {p : TransformPlace} (h : p.apart r = true) :
    p.outer ∉ r.fixedKeys ∧ (r.list? = some p.outer →
      ∃ key, p = .eachIn p.outer key ∧ key ≠ TransitionSlot.transitionKey) := by
  cases p with
  | field key =>
    have hkey := of_decide_eq_true h
    exact ⟨fun hmem => hkey (TransitionRule.mem_ownKeys_iff.2 (.inl hmem)),
      fun hl => absurd (TransitionRule.mem_ownKeys_of_list? hl) hkey⟩
  | nested outer key =>
    have houter := of_decide_eq_true h
    exact ⟨fun hmem => houter (TransitionRule.mem_ownKeys_iff.2 (.inl hmem)),
      fun hl => absurd (TransitionRule.mem_ownKeys_of_list? hl) houter⟩
  | eachIn list key =>
    obtain ⟨hfixed, hlist⟩ := Bool.and_eq_true_iff.1 h
    refine ⟨of_decide_eq_true hfixed, fun hl => ⟨key, rfl, ?_⟩⟩
    rcases Bool.or_eq_true_iff.1 hlist with hnot | hne
    · exact absurd (Option.mem_toList.2 hl) (of_decide_eq_true hnot)
    · exact of_decide_eq_true hne

end TransformPlace

/-! ### Entries of a list of names -/

namespace TransitionSlot

/-- The record of an entry that lost its name, was changed by `h`, and got its name back. -/
theorem exists_named_entry {h : Fields → Fields}
    (hnodup : ∀ record : Fields, record.keys.Nodup → (h record).keys.Nodup) {entry : Fields}
    (hkeyed : Json.KeyedFields entry) :
    ∃ named : Fields, withName (entryName? (.obj entry))
        (clearEntry ((clearEntry (.obj entry)).onRecord h)) = .obj named ∧ named.keys.Nodup ∧
      named.get? transitionKey = (entry.get? transitionKey).bind Json.nameOnly ∧
      ∀ k, k ≠ transitionKey → named.get? k = (h (entry.erase transitionKey)).get? k := by
  have hcleared := Fields.puts_erase (hnodup _ (Fields.puts_erase hkeyed.nodup transitionKey).nodup)
    transitionKey
  have hname : entryName? (.obj entry) = (entry.get? transitionKey).bind Json.str? := rfl
  rw [hname, Json.bind_nameOnly]
  cases (entry.get? transitionKey).bind Json.str? with
  | none => exact ⟨_, rfl, hcleared.nodup, hcleared.self, hcleared.other⟩
  | some name =>
    have hputs := hcleared.trans (Fields.puts_insert hcleared.nodup transitionKey (.str name))
    exact ⟨_, rfl, hputs.nodup, hputs.self, hputs.other⟩

/-- An entry without transforms gets everything back but what is no name. -/
theorem alike_named {v : Json} (hkeyed : v.Keyed) :
    Json.Alike (withName (entryName? v) (clearEntry ((clearEntry v).onRecord id))) (onlyName v) := by
  cases v with
  | obj entry =>
    have hkeyed : Json.KeyedFields entry := hkeyed
    obtain ⟨named, heq, hnodup, hself, hother⟩ := exists_named_entry (h := id) (fun _ h => h) hkeyed
    have honly := Fields.puts_alter hkeyed.nodup Json.nameOnly transitionKey
    rw [heq]
    refine (Json.alike_obj_iff hnodup).2 fun k => ?_
    by_cases hk : k = transitionKey
    · subst hk
      rw [hself, honly.self]
      exact Json.alikeOption_refl fun _ => Json.keyed_of_bind_nameOnly
    · rw [hother k hk, honly.other k hk, id, Fields.get?_erase_of_ne _ hk]
      exact Json.alikeOption_refl fun _ hv => hkeyed.of_get? hv
  | arr items => exact Json.alike_refl hkeyed
  | _ => rfl

/-- An entry with its name back shows its transform decoded. -/
theorem showsRecord_named {key : String} (hne : key ≠ transitionKey) {v : Json} (hkeyed : v.Keyed)
    (hr : ∀ u, v.fieldsOf.get? key = some u → Transform.ReadsBack u) :
    TransformPlace.ShowsRecord key (withName (entryName? v)
      (clearEntry ((clearEntry v).onRecord (Fields.decodeAt · key)))) (onlyName v) := by
  cases v with
  | obj entry =>
    have hkeyed : Json.KeyedFields entry := hkeyed
    obtain ⟨named, heq, hnodup, hself, hother⟩ := exists_named_entry
      (fun _ h => (Fields.puts_decodeAt h key).nodup) hkeyed
    have honly := Fields.puts_alter hkeyed.nodup Json.nameOnly transitionKey
    have herased := Fields.puts_erase hkeyed.nodup transitionKey
    have hdecoded := Fields.puts_decodeAt herased.nodup key
    rw [heq]
    refine .record hnodup ?_ ?_ ?_ ?_
    · refine Json.KeyedFields.of_nodup honly.nodup fun k u hu => ?_
      by_cases hk : k = transitionKey
      · subst hk
        rw [honly.self] at hu
        exact Json.keyed_of_bind_nameOnly hu
      · rw [honly.other k hk] at hu
        exact hkeyed.of_get? hu
    · rw [hother key hne, hdecoded.self, herased.other key hne, honly.other key hne]
    · intro k hk
      by_cases hk' : k = transitionKey
      · subst hk'
        rw [hself, honly.self]
      · rw [hother k hk', hdecoded.other k hk, herased.other k hk', honly.other k hk']
    · intro u hu
      rw [honly.other key hne] at hu
      exact hr u hu
  | arr items => exact .other hkeyed nofun
  | _ => exact .other trivial nofun

end TransitionSlot

/-! ### The fields of a type -/

namespace NodeType

open TransitionSlot

variable {t : NodeType} {fields : Fields}

/-- What decoding does to an entry of the list of names. -/
def decodeEntry (t : NodeType) (record : Fields) : Fields :=
  match t.form.places.find? fun p => t.transitions.list? = some p.outer with
  | some (.eachIn _ key) => record.decodeAt key
  | _ => record

theorem apart_places (h : t.apart = true) :
    ∀ p ∈ t.form.places, p.apart t.transitions = true := by
  unfold apart at h
  unfold FormRule.places
  cases hform : t.form with
  | plain => exact nofun
  | transforms places =>
    rw [hform] at h
    exact List.all_eq_true.1 h
  | loop places =>
    rw [hform] at h
    exact List.all_eq_true.1 (Bool.and_eq_true_iff.1 h).1

/-- The retries of an action are not in the place of a name. -/
theorem prepared_ownKeys (h : t.apart = true) {key : String} (hkey : key ∈ t.transitions.ownKeys)
    (v : Json) : t.form.prepared key v = v := by
  unfold apart at h
  unfold FormRule.prepared
  cases hform : t.form with
  | loop places =>
    rw [hform] at h
    have haction := of_decide_eq_true (Bool.and_eq_true_iff.1 h).2
    exact if_neg fun he : key = "action" => haction (he ▸ hkey)
  | _ => rfl

/-- What `onlyNames` and then `prepare` leave in the fields. -/
structure Prepared (t : NodeType) (fields result : Fields) : Prop where
  nodup : result.keys.Nodup
  fixed : ∀ k ∈ t.transitions.fixedKeys, result.get? k = (fields.get? k).bind Json.nameOnly
  list : ∀ k, t.transitions.list? = some k →
    result.get? k = (fields.get? k).map (Json.onItems onlyName)
  other : ∀ k, k ∉ t.transitions.ownKeys →
    result.get? k = (fields.get? k).map (t.form.prepared k)

theorem prepared_onlyNames (hapart : t.apart = true) (h : fields.keys.Nodup) :
    t.Prepared fields (t.form.prepare (t.transitions.onlyNames fields)) := by
  have hedits := t.transitions.edits_onlyNames h
  have hown : ∀ k ∈ t.transitions.ownKeys,
      (t.form.prepare (t.transitions.onlyNames fields)).get? k
        = (t.transitions.onlyNames fields).get? k := by
    intro k hk
    rw [t.form.get?_prepare hedits.nodup, funext (prepared_ownKeys hapart hk)]
    exact Option.map_id_apply
  refine ⟨t.form.nodup_prepare hedits.nodup, fun k hk => ?_, fun k hk => ?_, fun k hk => ?_⟩
  · rw [hown k (TransitionRule.mem_ownKeys_iff.2 (.inl hk)), hedits.fixed k hk]
  · rw [hown k (TransitionRule.mem_ownKeys_of_list? hk), hedits.list k hk]
  · rw [t.form.get?_prepare hedits.nodup, hedits.other k hk]

/-- A place in the list of names is one transform of each entry. -/
theorem decodeEntry_of_mem (hapart : t.apart = true) {p : TransformPlace}
    (hnodup : (t.form.places.map TransformPlace.outer).Nodup) (hp : p ∈ t.form.places)
    (hl : t.transitions.list? = some p.outer) :
    ∃ key, p = .eachIn p.outer key ∧ key ≠ transitionKey ∧
      t.decodeEntry = (Fields.decodeAt · key) := by
  obtain ⟨key, hpkey, hne⟩ := (TransformPlace.outer_of_apart (apart_places hapart p hp)).2 hl
  refine ⟨key, hpkey, hne, funext fun record => ?_⟩
  obtain ⟨q, hq⟩ : ∃ q, t.form.places.find? (fun p => t.transitions.list? = some p.outer)
      = some q :=
    Option.isSome_iff_exists.1 (List.find?_isSome.2 ⟨p, hp, by simpa using hl⟩)
  have hqmem := List.mem_of_find?_eq_some hq
  have hqouter : q.outer = p.outer := by
    have hql : t.transitions.list? = some q.outer := by simpa using List.find?_some hq
    exact Option.some.inj (hql.symm.trans hl)
  obtain rfl := List.inj_on_of_nodup_map hnodup hqmem hp hqouter
  rw [decodeEntry, hq, hpkey]

theorem decodeEntry_of_not_mem
    (h : ∀ p ∈ t.form.places, t.transitions.list? ≠ some p.outer) : t.decodeEntry = id := by
  funext record
  have hnone : t.form.places.find? (fun p => t.transitions.list? = some p.outer) = none :=
    List.find?_eq_none.2 fun p hp hl => h p hp (of_decide_eq_true hl)
  rw [decodeEntry, hnone]
  rfl

/-- The form of fields, place by place. -/
structure Formed (t : NodeType) (fields result : Fields) : Prop where
  nodup : result.keys.Nodup
  fixed : ∀ k ∈ t.transitions.fixedKeys, result.get? k = none
  list : ∀ k, t.transitions.list? = some k → result.get? k
    = (fields.get? k).map (Json.onItems fun v => (clearEntry v).onRecord t.decodeEntry)
  place : ∀ p ∈ t.form.places, p.outer ∉ t.transitions.ownKeys →
    result.get? p.outer = ((fields.get? p.outer).map (t.form.prepared p.outer)).bind p.decoded
  other : ∀ k, k ∉ t.transitions.ownKeys → k ∉ t.form.places.map TransformPlace.outer →
    result.get? k = (fields.get? k).map (t.form.prepared k)

theorem formed_toForm (hapart : t.apart = true) (hseparate : t.separate = true)
    (h : fields.keys.Nodup) (hfits : t.transitions.Fits fields) :
    t.Formed fields (t.form.toForm (t.transitions.strip fields)) := by
  have houters := nodup_places hseparate
  have hstrip := TransitionRule.edits_strip h hfits
  have hprepared : ∀ k, (t.form.prepare (t.transitions.strip fields)).get? k
      = ((t.transitions.strip fields).get? k).map (t.form.prepared k) :=
    t.form.get?_prepare hstrip.nodup
  have hown : ∀ k ∈ t.transitions.ownKeys,
      (t.form.prepare (t.transitions.strip fields)).get? k
        = (t.transitions.strip fields).get? k := by
    intro k hk
    rw [hprepared, funext (prepared_ownKeys hapart hk)]
    exact Option.map_id_apply
  obtain ⟨hnodup, hself, hother⟩ := Fields.foldl_puts TransformPlace.decode
    (fun p v? => v?.bind p.decoded) houters (t.form.nodup_prepare hstrip.nodup)
    fun p _ mid hmid => TransformPlace.puts_decode hmid p
  rw [FormRule.toForm_eq]
  refine ⟨hnodup, fun k hk => ?_, fun k hk => ?_, fun p hp hk => ?_, fun k hk hk' => ?_⟩
  · have hnot : k ∉ t.form.places.map TransformPlace.outer := by
      intro hmem
      obtain ⟨p, hp, rfl⟩ := List.mem_map.1 hmem
      exact (TransformPlace.outer_of_apart (apart_places hapart p hp)).1 hk
    rw [hother k hnot, hown k (TransitionRule.mem_ownKeys_iff.2 (.inl hk)), hstrip.fixed k hk,
      Option.bind_fun_none]
  · have hkey := hown k (TransitionRule.mem_ownKeys_of_list? hk)
    rw [hstrip.list k hk] at hkey
    by_cases hmem : k ∈ t.form.places.map TransformPlace.outer
    · obtain ⟨p, hp, rfl⟩ := List.mem_map.1 hmem
      obtain ⟨key, hpkey, -, hentry⟩ := decodeEntry_of_mem hapart houters hp hk
      have hdecoded : p.decoded
          = fun v => some (v.onItems (Json.onRecord (Fields.decodeAt · key))) := by
        rw [hpkey]
        rfl
      rw [hself p hp, hkey, hentry, hdecoded, ← Json.map_onItems_onItems _ clearEntry]
      exact Option.map_eq_bind.symm
    · have hnone : ∀ p ∈ t.form.places, t.transitions.list? ≠ some p.outer := by
        intro p hp hl
        exact hmem (List.mem_map.2 ⟨p, hp, Option.some.inj (hl.symm.trans hk)⟩)
      rw [hother k hmem, hkey, decodeEntry_of_not_mem hnone]
      congr 2
      funext v
      cases v <;> rfl
  · rw [hself p hp, hprepared, hstrip.other _ hk]
  · rw [hother k hk', hprepared, hstrip.other k hk]

/-- The list of names in a form has an entry for each entry of the fields. -/
theorem entries_of_list {r : TransitionRule} {form : Fields} {f : Json → Json}
    (h : ∀ k, r.list? = some k → form.get? k = (fields.get? k).map (Json.onItems f)) :
    r.entries form = (r.entries fields).map f := by
  unfold TransitionRule.entries
  cases hl : r.list? with
  | none => rfl
  | some list =>
    simp only [itemsOf, h list hl]
    cases fields.get? list with
    | none => rfl
    | some v => cases v <;> rfl

/-- The form with the names written back shows the prepared fields at every place. -/
theorem shows_written (hapart : t.apart = true) (hseparate : t.separate = true)
    (hkeyed : Json.KeyedFields fields) {form written prepared : Fields}
    (hr : ∀ v ∈ t.transforms fields, Transform.ReadsBack v) (hform : t.Formed fields form)
    (hprepared : t.Prepared fields prepared)
    (hlist : ∀ k, t.transitions.list? = some k → written.get? k = (fields.get? k).map
      (Json.onItems fun v =>
        withName (entryName? v) (clearEntry ((clearEntry v).onRecord t.decodeEntry))))
    (hother : ∀ k, k ∉ t.transitions.ownKeys → written.get? k = form.get? k)
    {p : TransformPlace} (hp : p ∈ t.form.places) :
    p.Shows (written.get? p.outer) (prepared.get? p.outer) := by
  obtain ⟨houters, hkeeps⟩ := Bool.and_eq_true_iff.1 hseparate
  have hvalues : ∀ v, fields.get? p.outer = some v → ∀ u ∈ p.values v, Transform.ReadsBack u := by
    intro v hv u hu
    refine hr u (List.mem_flatMap.2 ⟨p, hp, List.mem_flatMap.2 ⟨v, ?_, hu⟩⟩)
    exact Option.mem_toList.2 hv
  by_cases hown : p.outer ∈ t.transitions.ownKeys
  · -- Among the keys of names a place can only be in the entries of the list.
    obtain ⟨hfixed, -⟩ := TransformPlace.outer_of_apart (apart_places hapart p hp)
    have hl := (TransitionRule.mem_ownKeys_iff.1 hown).resolve_left hfixed
    obtain ⟨key, hpkey, hne, hentry⟩ := decodeEntry_of_mem hapart (of_decide_eq_true houters) hp hl
    rw [hlist _ hl, hprepared.list _ hl, hentry]
    cases hv : fields.get? p.outer with
    | none => exact .absent
    | some v =>
      have hkeyedv := hkeyed.of_get? hv
      have hvalues := hvalues v hv
      rw [hpkey] at hvalues ⊢
      cases v with
      | arr items =>
        refine .eachIn (List.forall₂_map_left_iff.2 (List.forall₂_map_right_iff.2
          (List.forall₂_same.2 fun v hv => ?_)))
        refine showsRecord_named hne (Json.keyedItems_iff.1 hkeyedv v hv) fun u hu => ?_
        exact hvalues u (List.mem_filterMap.2 ⟨v, hv, hu⟩)
      | _ => exact .noList hkeyedv nofun
  · rw [hother _ hown, hform.place p hp hown, hprepared.other _ hown]
    refine TransformPlace.shows_decoded (fun v hv => ?_) fun v hv u hu => ?_
    · obtain ⟨w, hw, rfl⟩ := Option.map_eq_some_iff.1 hv
      exact t.form.keyed_prepared _ (hkeyed.of_get? hw)
    · obtain ⟨w, hw, rfl⟩ := Option.map_eq_some_iff.1 hv
      rw [TransformPlace.values_prepared (List.all_eq_true.1 hkeeps p hp)] at hu
      exact hvalues w hw u hu

/-- At a key without transforms the form with the names written back is like the prepared fields. -/
theorem alike_written (hkeyed : Json.KeyedFields fields) {form written prepared : Fields}
    (hform : t.Formed fields form) (hprepared : t.Prepared fields prepared)
    (hfixed : ∀ k ∈ t.transitions.fixedKeys,
      written.get? k = (fields.get? k).bind Json.nameOnly)
    (hlist : ∀ k, t.transitions.list? = some k → written.get? k = (fields.get? k).map
      (Json.onItems fun v =>
        withName (entryName? v) (clearEntry ((clearEntry v).onRecord t.decodeEntry))))
    (hother : ∀ k, k ∉ t.transitions.ownKeys → written.get? k = form.get? k) {k : String}
    (hk : k ∉ t.form.places.map TransformPlace.outer) :
    Json.AlikeOption (written.get? k) (prepared.get? k) := by
  by_cases hown : k ∈ t.transitions.ownKeys
  · rcases TransitionRule.mem_ownKeys_iff.1 hown with hmem | hl
    · rw [hfixed k hmem, hprepared.fixed k hmem]
      exact Json.alikeOption_refl fun _ => Json.keyed_of_bind_nameOnly
    · have hnone : ∀ p ∈ t.form.places, t.transitions.list? ≠ some p.outer := by
        intro p hp hl'
        exact hk (List.mem_map.2 ⟨p, hp, Option.some.inj (hl'.symm.trans hl)⟩)
      rw [hlist k hl, hprepared.list k hl, decodeEntry_of_not_mem hnone]
      cases hv : fields.get? k with
      | none => trivial
      | some v =>
        have hkeyedv := hkeyed.of_get? hv
        cases v with
        | arr items =>
          refine Json.alikeItems_iff.2 (List.forall₂_map_left_iff.2 (List.forall₂_map_right_iff.2
            (List.forall₂_same.2 fun v hv => ?_)))
          exact alike_named (Json.keyedItems_iff.1 hkeyedv v hv)
        | _ => exact Json.alike_refl hkeyedv
  · rw [hother k hown, hform.other k hown hk, hprepared.other k hown]
    refine Json.alikeOption_refl fun v hv => ?_
    obtain ⟨w, hw, rfl⟩ := Option.map_eq_some_iff.1 hv
    exact t.form.keyed_prepared _ (hkeyed.of_get? hw)

/-- The fields of a state become a form without names; when its names are written back and the form
becomes fields again, these are the fields in normal form. -/
theorem fields_restored (hapart : t.apart = true) (hseparate : t.separate = true)
    (hkeyed : Json.KeyedFields fields) (hfits : t.transitions.Fits fields)
    (hr : ∀ v ∈ t.transforms fields, Transform.ReadsBack v) (id : String) :
    ∃ form result, Compile.writeAll
        (t.transitions.strip (t.form.toForm (t.transitions.strip fields)))
        (t.transitions.held fields) = some form ∧
      t.form.ofForm id form = .ok result ∧
      Json.Alike (.obj result) (.obj (t.normal fields)) := by
  have houters := nodup_places hseparate
  have hform := formed_toForm hapart hseparate hkeyed.nodup hfits
  have hfits' : t.transitions.Fits (t.form.toForm (t.transitions.strip fields)) := by
    rwa [TransitionRule.Fits, entries_of_list hform.list, List.length_map]
  have hstrip := TransitionRule.edits_strip hform.nodup hfits'
  have hshown : ∀ k, t.transitions.list? = some k →
      (t.transitions.strip (t.form.toForm (t.transitions.strip fields))).get? k
        = (fields.get? k).map (Json.onList (List.mapFirst (t.transitions.branches fields)
            fun v => clearEntry ((clearEntry v).onRecord t.decodeEntry))) := fun k hk => by
    rw [TransitionRule.map_mapFirst_of_fits hfits hk, hstrip.list k hk, hform.list k hk,
      Json.map_onItems_onItems]
  obtain ⟨written, hwritten, hnodup, hfixed, hlist, hother⟩ :=
    TransitionRule.writeAll_held hstrip.nodup
      (fun k hk => by rw [hstrip.fixed k hk, Option.bind_fun_none]) hshown
      (fun v name hname => by
        cases v with
        | obj entry => exact ⟨_, rfl⟩
        | _ => cases hname)
  have hlist : ∀ k, t.transitions.list? = some k → written.get? k = (fields.get? k).map
      (Json.onItems fun v =>
        withName (entryName? v) (clearEntry ((clearEntry v).onRecord t.decodeEntry))) :=
    fun k hk => (hlist k hk).trans (TransitionRule.map_mapFirst_of_fits hfits hk _)
  have hother : ∀ k, k ∉ t.transitions.ownKeys →
      written.get? k = (t.form.toForm (t.transitions.strip fields)).get? k :=
    fun k hk => (hother k hk).trans (hstrip.other k hk)
  have hprepared := prepared_onlyNames hapart hkeyed.nodup
  obtain ⟨result, hresult, hresultnd, hplaces, hrest⟩ := Fields.foldlM_puts
    (TransformPlace.encode id)
    (fun p v? => Json.AlikeOption v?
      (((t.form.prepare (t.transitions.onlyNames fields)).get? p.outer).bind p.normal))
    houters hnodup fun p hp mid hmid hget => by
      refine TransformPlace.encode_eq_ok id hmid ?_
      rw [hget]
      exact shows_written hapart hseparate hkeyed hr hform hprepared hlist hother hp
  obtain ⟨-, hnormal, hnormal'⟩ := Fields.foldl_puts
    (fun acc (p : TransformPlace) => acc.alter p.normal p.outer)
    (fun p v? => v?.bind p.normal) houters hprepared.nodup
    fun p _ mid hmid => Fields.puts_alter hmid p.normal p.outer
  refine ⟨written, result, hwritten, (t.form.ofForm_eq id written).trans hresult,
    (Json.alike_obj_iff hresultnd).2 fun k => ?_⟩
  rw [normal, FormRule.normal]
  by_cases hk : k ∈ t.form.places.map TransformPlace.outer
  · obtain ⟨p, hp, rfl⟩ := List.mem_map.1 hk
    rw [hnormal p hp]
    exact hplaces p hp
  · rw [hrest k hk, hnormal' k hk]
    exact alike_written hkeyed hform hprepared hfixed hlist hother hk

end NodeType

end Workflow
