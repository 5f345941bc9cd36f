import Workflow.Proofs.NodeType.Settled

/-!
# Transforms that spare the names

Names are taken out before the transforms are decoded, and they are written before the transforms
are encoded. So both orders give the same fields as long as no transform is in the place of a name
(`TransformPlace.sparesNames`). Nothing else about the places matters for one step: a transform may
be a field of a record in the place of a name or of the list of names, since such a record is no
name, and the entries of the list may hold any number of them.

Changing such transforms keeps the names (`TransitionRule.SameNames.onTransform`) and does not bring
back a name that was taken out (`TransitionRule.Nameless.onTransform`), and a name is written beside
them (`TransitionRule.write_onTransform`). When no two places interfere, either
(`NodeType.IsSound`), fields that were a form come back with the same names behind the same ports
(`NodeType.targets_restored`).
-/

namespace Workflow

/-- No transform at a place is a name, the list of names, or the name of an entry of the list. -/
def TransformPlace.sparesNames (r : TransitionRule) : TransformPlace → Bool
  | field key => key ∉ r.ownKeys
  | nested .. => true
  | eachIn list key => r.list? ≠ some list || key ≠ TransitionSlot.transitionKey

theorem TransformPlace.ne_transitionKey {r : TransitionRule} {list key : String}
    (h : (TransformPlace.eachIn list key).sparesNames r = true) (hl : r.list? = some list) :
    key ≠ TransitionSlot.transitionKey := by
  rcases Bool.or_eq_true_iff.1 h with hlist | hkey
  · exact absurd hl (of_decide_eq_true hlist)
  · exact of_decide_eq_true hkey

namespace TransitionRule

open TransitionSlot

variable {r : TransitionRule} {p : TransformPlace} {fields : Fields}

/-! ### Names beside transforms -/

/-- A change of a value that leaves it a name or no name, and keeps the names of its items. -/
theorem SameNames.alter_some {f : Json → Json} (key : String) (fields : Fields)
    (hstr : ∀ v, (f v).str? = v.str?)
    (hitems : r.list? = some key → ∀ v,
      ((f v).arr?.getD []).map entryName? = (v.arr?.getD []).map entryName?) :
    r.SameNames (fields.alter (fun v => some (f v)) key) fields where
  fixed s hs := by
    cases hkey : s.key? with
    | none => rw [read_eq_none_of_key? hs hkey, read_eq_none_of_key? hs hkey]
    | some k =>
      rw [read_of_key hkey, read_of_key hkey]
      by_cases hk : k = key
      · subst hk
        rw [Fields.get?_alter_some]
        cases fields.get? k with
        | none => rfl
        | some v => exact hstr v
      · rw [Fields.get?_alter_of_ne _ hk]
  entries := by
    unfold TransitionRule.entries
    cases hl : r.list? with
    | none => rfl
    | some list =>
      by_cases hk : list = key
      · subst hk
        simp only [itemsOf, Fields.get?_alter_some]
        cases fields.get? list with
        | none => rfl
        | some v => exact hitems hl v
      · have hget : (fields.alter (fun v => some (f v)) key).get? list = fields.get? list :=
          Fields.get?_alter_of_ne _ hk
        simp only [itemsOf_congr hget]

/-- Changing the transforms at a place that spares the names keeps the names. -/
theorem SameNames.onTransform (h : p.sparesNames r = true) (φ : Json → Option Json)
    (fields : Fields) : r.SameNames (fields.alter (p.onTransform φ) p.outer) fields := by
  cases p with
  | field key =>
    refine .of_get? fun k hk => Fields.get?_alter_of_ne _ ?_
    rintro rfl
    exact of_decide_eq_true h hk
  | nested outer key =>
    exact .alter_some outer fields (fun v => by cases v <;> rfl) fun _ v => by cases v <;> rfl
  | eachIn list key =>
    refine .alter_some list fields (fun v => by cases v <;> rfl) fun hl v => ?_
    have hkey := TransformPlace.ne_transitionKey h hl
    cases v with
    | arr items =>
      refine (List.map_map ..).trans (List.map_congr_left fun v _ => ?_)
      exact Json.entryName?_onRecord (fun record => Fields.get?_alter_of_ne φ hkey.symm) v
    | _ => rfl

theorem SameNames.onTransforms {f : FormRule} (h : ∀ p ∈ f.places, p.sparesNames r = true)
    (φ : Json → Option Json) (fields : Fields) :
    r.SameNames (f.onTransforms φ fields) fields :=
  FormRule.onTransforms_induction (P := fun changed => r.SameNames changed fields) .refl
    fun p hp changed hsame => (onTransform (h p hp) φ changed).trans hsame

/-- No slot of a port holds anything that could be taken out. -/
structure Nameless (r : TransitionRule) (fields : Fields) : Prop where
  fixed : ∀ key ∈ r.fixedKeys, fields.get? key = none
  list : ∀ list v, r.list? = some list → fields.get? list = some v →
    v.onList (clearBranches r.mostBranches) = v

namespace Nameless

theorem strip_eq (h : r.Nameless fields) : r.strip fields = fields := by
  rw [strip_eq_alterAll]
  refine Fields.alterAll_of_fixed fun c hc v hv => ?_
  rcases List.mem_append.1 hc with hc | hc
  · obtain ⟨key, hkey, rfl⟩ := List.mem_map.1 hc
    cases (h.fixed key hkey).symm.trans hv
  · obtain ⟨list, hl, rfl⟩ := List.mem_map.1 hc
    exact congrArg some (h.list list v (Option.mem_toList.1 hl) hv)

theorem of_get? {fields' : Fields} (h : r.Nameless fields)
    (hget : ∀ key ∈ r.ownKeys, fields'.get? key = fields.get? key) : r.Nameless fields' where
  fixed key hkey := (hget key (mem_ownKeys_iff.2 (.inl hkey))).trans (h.fixed key hkey)
  list list v hl hv := h.list list v hl ((hget list (mem_ownKeys_of_list? hl)).symm.trans hv)

/-- Changing the transforms at a place that spares the names brings no name back. -/
theorem onTransform (h : r.Nameless fields) (hp : p.sparesNames r = true)
    (φ : Json → Option Json) : r.Nameless (fields.alter (p.onTransform φ) p.outer) where
  fixed key hkey := by
    by_cases he : key = p.outer
    · subst he
      rw [Fields.alter_eq_self (h.fixed _ hkey), h.fixed _ hkey]
    · rw [Fields.get?_alter_of_ne _ he, h.fixed key hkey]
  list list v hl hv := by
    by_cases he : list = p.outer
    · cases p with
      | field key =>
        obtain rfl : list = key := he
        exact absurd (mem_ownKeys_of_list? hl) (of_decide_eq_true hp)
      | nested outer key =>
        obtain rfl : list = outer := he
        obtain ⟨w, hw, rfl⟩ := Option.map_eq_some_iff.1 ((Fields.get?_alter_some ..).symm.trans hv)
        have hw := h.list list w hl hw
        cases w with
        | arr items => exact hw
        | _ => rfl
      | eachIn list' key =>
        obtain rfl : list = list' := he
        have hkey := TransformPlace.ne_transitionKey hp hl
        obtain ⟨w, hw, rfl⟩ := Option.map_eq_some_iff.1 ((Fields.get?_alter_some ..).symm.trans hv)
        have hw := h.list list w hl hw
        cases w with
        | arr items =>
          have hclear : ∀ v, clearEntry (v.onRecord (Fields.alter φ key))
              = (clearEntry v).onRecord (Fields.alter φ key) :=
            clearEntry_onRecord fun record => by
              rw [Fields.erase_eq_alter, Fields.erase_eq_alter, Fields.alter_comm hkey.symm]
          have hitems : clearBranches r.mostBranches items = items := Json.arr.inj hw
          refine congrArg Json.arr ((clearBranches_map hclear _ items).trans ?_)
          rw [hitems]
        | _ => rfl
    · rw [Fields.get?_alter_of_ne _ he] at hv
      exact h.list list v hl hv

theorem onTransforms {f : FormRule} (h : r.Nameless fields)
    (hf : ∀ p ∈ f.places, p.sparesNames r = true) (φ : Json → Option Json) :
    r.Nameless (f.onTransforms φ fields) :=
  FormRule.onTransforms_induction h fun p hp _ hnameless => hnameless.onTransform (hf p hp) φ

end Nameless

theorem nameless_strip (h : Json.KeyedFields fields) : r.Nameless (r.strip fields) where
  fixed _ hkey := get?_strip_of_fixed h.nodup hkey
  list list v hl hv := by
    have hget := get?_strip_list hl (r.strip fields)
    rw [r.strip_strip h, hv, Option.map_some] at hget
    exact (onList_mapFirst_branches hl hv clearEntry).symm.trans (Option.some.inj hget).symm

/-- A name is written beside transforms that spare it. -/
theorem write_onTransform (hp : p.sparesNames r = true) (φ : Json → Option Json) {port : Port}
    {s : TransitionSlot} (hs : r.slot? port = some s) {name : String} {named : Fields}
    (hw : s.write fields name = some named) :
    s.write (fields.alter (p.onTransform φ) p.outer) name
      = some (named.alter (p.onTransform φ) p.outer) := by
  rcases slot_cases hs hw with ⟨key, hkey, hskey⟩ | ⟨list, index, hl, -, rfl⟩
  · rw [write_of_key hskey] at hw ⊢
    obtain rfl := Option.some.inj hw
    by_cases he : p.outer = key
    · -- A name is no record and no list, so there is no transform in it.
      cases p with
      | field key' =>
        obtain rfl : key' = key := he
        exact absurd (mem_ownKeys_iff.2 (.inl hkey)) (of_decide_eq_true hp)
      | nested outer key' | eachIn outer key' =>
        obtain rfl : outer = key := he
        exact congrArg some (Fields.alter_some_insert_self _ fields outer (.str name)).symm
    · exact congrArg some (Fields.alter_insert_of_ne he _ _ fields).symm
  · obtain ⟨items, entry, hitems, hentry, rfl⟩ := write_branch_eq_some_iff.1 hw
    by_cases he : p.outer = list
    · cases p with
      | field key =>
        obtain rfl : key = list := he
        exact absurd (mem_ownKeys_of_list? hl) (of_decide_eq_true hp)
      | nested outer key =>
        obtain rfl : outer = list := he
        refine write_branch_eq_some_iff.2 ⟨items, entry, ?_, hentry, ?_⟩
        · exact (Fields.get?_alter_some ..).trans (congrArg _ hitems)
        · exact Fields.alter_some_insert_self _ fields outer _
      | eachIn list' key =>
        obtain rfl : list' = list := he
        have hkey := TransformPlace.ne_transitionKey hp hl
        refine write_branch_eq_some_iff.2
          ⟨items.map (Json.onRecord (Fields.alter φ key)), Fields.alter φ key entry, ?_, ?_, ?_⟩
        · exact (Fields.get?_alter_some ..).trans (congrArg _ hitems)
        · rw [List.getElem?_map, hentry]
          rfl
        · refine (Fields.alter_some_insert_self _ fields list' _).trans ?_
          simp only [Json.onItems, List.map_set, Json.onRecord, Fields.alter_insert_of_ne hkey]
          rfl
    · refine write_branch_eq_some_iff.2 ⟨items, entry, ?_, hentry, ?_⟩
      · rw [Fields.get?_alter_of_ne _ (Ne.symm he), hitems]
      · exact Fields.alter_insert_of_ne he _ _ _

theorem write_onTransforms {f : FormRule} (hf : ∀ p ∈ f.places, p.sparesNames r = true)
    (φ : Json → Option Json) {port : Port} {s : TransitionSlot} (hs : r.slot? port = some s)
    {name : String} {named : Fields} (hw : s.write fields name = some named) :
    s.write (f.onTransforms φ fields) name = some (f.onTransforms φ named) :=
  FormRule.onTransforms_rel (R := fun plain written => s.write plain name = some written) hw
    fun p hp _ _ hw => write_onTransform (hf p hp) φ hs hw

end TransitionRule

/-! ### Names that are written back -/

namespace TransitionSlot

theorem keyed_withName (name? : Option String) {v : Json} (h : v.Keyed) :
    (withName name? v).Keyed := by
  cases name? with
  | none => exact h
  | some name =>
    cases v with
    | obj entry => exact Json.KeyedFields.insert h transitionKey trivial
    | _ => exact h

theorem get?_withName {key : String} (h : key ≠ transitionKey) (name? : Option String) (v : Json) :
    (withName name? v).fieldsOf.get? key = v.fieldsOf.get? key := by
  cases name? with
  | none => rfl
  | some name =>
    cases v with
    | obj entry => exact Fields.get?_insert_of_ne entry _ h
    | _ => rfl

theorem entryName?_withName {v : Json} (h : v.Keyed) :
    entryName? (withName (entryName? v) (clearEntry v)) = entryName? v := by
  cases hname : entryName? v with
  | none => exact entryName?_clearEntry h
  | some name =>
    cases v with
    | obj entry =>
      simp [withName, clearEntry, entryName?, Json.obj?, Fields.get?_insert_self, Json.str?]
    | _ => cases hname

end TransitionSlot

namespace TransitionRule

open TransitionSlot Compile

variable {r : TransitionRule} {fields : Fields}

/-- The slots of names are those of ports. -/
theorem exists_port_of_mem_held {w : TransitionSlot × String} (h : w ∈ r.held fields) :
    ∃ port, r.slot? port = some w.1 := by
  obtain ⟨s, hs, hw⟩ := List.mem_filterMap.1 h
  obtain ⟨⟨port, slot⟩, hmem, rfl⟩ := List.mem_map.1 hs
  obtain ⟨name, -, rfl⟩ := Option.map_eq_some_iff.1 hw
  exact ⟨port, slot?_of_mem_slots hmem⟩

/-- The fields `result` are `fields` with every name taken out and written back. -/
structure Renews (r : TransitionRule) (fields result : Fields) : Prop where
  nodup : result.keys.Nodup
  fixed : ∀ k ∈ r.fixedKeys, result.get? k = (fields.get? k).bind Json.nameOnly
  list : ∀ k, r.list? = some k → result.get? k = (fields.get? k).map (Json.onList
    (List.mapFirst (r.branches fields) fun v => withName (entryName? v) (clearEntry v)))
  other : ∀ k, k ∉ r.ownKeys → result.get? k = fields.get? k

theorem exists_renewed (h : Json.KeyedFields fields) :
    ∃ result, writeAll (r.strip fields) (r.held fields) = some result ∧ r.Renews fields result := by
  have hrecord : ∀ v name, entryName? v = some name → ∃ entry, clearEntry v = .obj entry := by
    intro v name hname
    cases v with
    | obj entry => exact ⟨_, rfl⟩
    | _ => cases hname
  obtain ⟨result, hresult, hnodup, hfixed, hlist, hother⟩ := writeAll_held
    (r.keyed_strip h).nodup (fun _ hkey => get?_strip_of_fixed h.nodup hkey)
    (fun _ hl => get?_strip_list hl fields) hrecord
  exact ⟨result, hresult, hnodup, hfixed, hlist,
    fun k hk => (hother k hk).trans (get?_strip_of_not_mem hk fields)⟩

namespace Renews

variable {result : Fields}

theorem keyed (h : r.Renews fields result) (hkeyed : Json.KeyedFields fields) :
    Json.KeyedFields result := by
  refine .of_nodup h.nodup fun k v hv => ?_
  by_cases hk : k ∈ r.ownKeys
  · rcases mem_ownKeys_iff.1 hk with hfixed | hl
    · exact Json.keyed_of_bind_nameOnly ((h.fixed k hfixed).symm.trans hv)
    · obtain ⟨w, hw, rfl⟩ := Option.map_eq_some_iff.1 ((h.list k hl).symm.trans hv)
      have hw := hkeyed.of_get? hw
      cases w with
      | arr items =>
        refine Json.keyedItems_iff.2 fun u hu => ?_
        have hitems := Json.keyedItems_iff.1 hw
        rcases List.mem_append.1 hu with hu | hu
        · obtain ⟨item, hitem, rfl⟩ := List.mem_map.1 hu
          exact keyed_withName _ (keyed_clearEntry (hitems item (List.mem_of_mem_take hitem)))
        · exact hitems u (List.mem_of_mem_drop hu)
      | _ => exact hw
  · exact hkeyed.of_get? ((h.other k hk).symm.trans hv)

theorem sameNames (h : r.Renews fields result) (hkeyed : Json.KeyedFields fields) :
    r.SameNames result fields where
  fixed s hs := by
    cases hkey : s.key? with
    | none =>
      rw [SameNames.read_eq_none_of_key? hs hkey, SameNames.read_eq_none_of_key? hs hkey]
    | some k =>
      rw [read_of_key hkey, read_of_key hkey, h.fixed k (List.mem_filterMap.2 ⟨s, hs, hkey⟩),
        Json.bind_nameOnly]
      cases (fields.get? k).bind Json.str? <;> rfl
  entries := by
    unfold TransitionRule.entries
    cases hl : r.list? with
    | none => rfl
    | some list =>
      simp only [itemsOf, h.list list hl]
      cases hv : fields.get? list with
      | none => rfl
      | some v =>
        cases v with
        | arr items =>
          have hitems := Json.keyedItems_iff.1 (hkeyed.of_get? hv)
          exact List.map_mapFirst_of_fixed fun v hv =>
            entryName?_withName (hitems v (List.mem_of_mem_take hv))
        | _ => rfl

/-- No transform comes from a name, where they are spared. -/
theorem transforms_subset (h : r.Renews fields result) {p : TransformPlace}
    (hp : p.sparesNames r = true) : p.transforms result ⊆ p.transforms fields := by
  intro u hu
  obtain ⟨v, hv, hu⟩ := List.mem_flatMap.1 hu
  have hv := Option.mem_toList.1 hv
  by_cases hown : p.outer ∈ r.ownKeys
  · rcases mem_ownKeys_iff.1 hown with hfixed | hl
    · rw [h.fixed _ hfixed, Json.bind_nameOnly] at hv
      obtain ⟨name, -, rfl⟩ := Option.map_eq_some_iff.1 hv
      cases p with
      | field key => exact absurd hown (of_decide_eq_true hp)
      | nested | eachIn => cases hu
    · obtain ⟨w, hw, rfl⟩ := Option.map_eq_some_iff.1 ((h.list _ hl).symm.trans hv)
      refine List.mem_flatMap.2 ⟨w, Option.mem_toList.2 hw, ?_⟩
      cases p with
      | field key => exact absurd hown (of_decide_eq_true hp)
      | nested outer key => cases w <;> exact hu
      | eachIn list key =>
        have hkey := TransformPlace.ne_transitionKey hp hl
        cases w with
        | arr items =>
          have hitems : ((items.mapFirst (r.branches fields) fun v =>
              withName (entryName? v) (clearEntry v)).map fun v => v.fieldsOf.get? key)
              = items.map fun v => v.fieldsOf.get? key :=
            List.map_mapFirst_of_fixed fun v _ =>
              (get?_withName hkey _ _).trans (get?_clearEntry hkey v)
          have hvalues := congrArg (List.filterMap id) hitems
          rw [List.filterMap_map, List.filterMap_map] at hvalues
          exact (congrArg (u ∈ ·) hvalues).mp hu
        | _ => exact hu
  · exact List.mem_flatMap.2 ⟨v, Option.mem_toList.2 ((h.other _ hown).symm.trans hv), hu⟩

end Renews

end TransitionRule

/-! ### Types -/

namespace NodeType

open Compile

variable {t : NodeType} {fields : Fields}

/-- The transforms of a type spare its names, no two of them interfere, and its retries are apart
from both. -/
structure Portable (t : NodeType) : Prop where
  places : TransformPlace.Independent t.form.places
  spares : ∀ p ∈ t.form.places, p.sparesNames t.transitions = true
  retries : ∀ key ∈ t.transitions.ownKeys, key ∉ t.form.preparations.map Prod.fst
  prepared : ∀ p ∈ t.form.places, ∀ v, p.values (t.form.prepared p.outer v) = p.values v

/-- Transforms that are apart from the names spare them. -/
theorem Portable.of_apart (hapart : t.apart = true) (hseparate : t.separate = true) :
    t.Portable where
  places := TransformPlace.independent_of_nodup (nodup_places hseparate)
  spares p hp := by
    have hp := apart_places hapart p hp
    cases p with
    | field key => exact hp
    | nested outer key => rfl
    | eachIn list key =>
      obtain ⟨-, hlist⟩ := Bool.and_eq_true_iff.1 hp
      refine Bool.or_eq_true_iff.2 ((Bool.or_eq_true_iff.1 hlist).imp_left fun hlist => ?_)
      exact decide_eq_true fun hl => of_decide_eq_true hlist (Option.mem_toList.2 hl)
  retries _ := not_mem_preparations hapart
  prepared p hp :=
    TransformPlace.values_prepared (List.all_eq_true.1 (Bool.and_eq_true_iff.1 hseparate).2 p hp)

namespace Portable

theorem transforms_prepare (ht : t.Portable) (h : fields.keys.Nodup) {p : TransformPlace}
    (hp : p ∈ t.form.places) : p.transforms (t.form.prepare fields) = p.transforms fields := by
  unfold TransformPlace.transforms
  rw [t.form.get?_prepare h]
  cases fields.get? p.outer with
  | none => rfl
  | some v => simp [ht.prepared p hp]

theorem get?_prepare (ht : t.Portable) {key : String} (hkey : key ∈ t.transitions.ownKeys)
    (fields : Fields) : (t.form.prepare fields).get? key = fields.get? key := by
  rw [FormRule.prepare_eq_alterAll]
  exact Fields.get?_alterAll_of_not_mem (ht.retries key hkey)

end Portable

/-- Fields that were a form come back from it with the same names behind the same ports. -/
theorem targets_restored (ht : t.Portable) (hkeyed : Json.KeyedFields fields)
    (hr : ∀ v ∈ t.transforms fields, Transform.ReadsBack v) (id : String) :
    ∃ form result, writeAll (t.transitions.strip (t.form.toForm (t.transitions.strip fields)))
        (t.transitions.held fields) = some form ∧
      t.form.ofForm id form = .ok result ∧
      t.transitions.targets result = t.transitions.targets fields := by
  have hports : ∀ w ∈ t.transitions.held fields, ∃ port, t.transitions.slot? port = some w.1 :=
    fun w hw => TransitionRule.exists_port_of_mem_held hw
  obtain ⟨named, hw, hrenews⟩ := t.transitions.exists_renewed hkeyed
  -- Taking the names out of the form a second time changes nothing.
  have hnameless : t.transitions.Nameless (t.form.prepare (t.transitions.strip fields)) :=
    (TransitionRule.nameless_strip hkeyed).of_get? fun key hkey => ht.get?_prepare hkey _
  have hform : t.transitions.strip (t.form.toForm (t.transitions.strip fields))
      = t.form.onTransforms Transform.decodeValue
          (t.form.prepare (t.transitions.strip fields)) := by
    rw [FormRule.toForm_eq_onTransforms]
    exact (hnameless.onTransforms ht.spares _).strip_eq
  -- The names are written into the form as they are into the fields.
  have hwritten := writeAll_beside (fun hs hw =>
    TransitionRule.write_onTransforms ht.spares Transform.decodeValue hs hw) hports
    (writeAll_prepare ht.retries hports hw)
  have hread : ∀ p ∈ t.form.places, ∀ v ∈ p.transforms (t.form.prepare named),
      Transform.ReadsBack v := by
    intro p hp v hv
    rw [ht.transforms_prepare hrenews.nodup hp] at hv
    exact hr v (List.mem_flatMap.2 ⟨p, hp, hrenews.transforms_subset (ht.spares p hp) hv⟩)
  refine ⟨_, _, hform ▸ hwritten, FormRule.ofForm_onTransforms ht.places
    (keyed_prepare (hrenews.keyed hkeyed)) hread id, ?_⟩
  have hprepared : t.transitions.SameNames (t.form.prepare named) named :=
    .of_get? fun key hkey => ht.get?_prepare hkey named
  exact ((TransitionRule.SameNames.onTransforms ht.spares Transform.normal _).trans
    (hprepared.trans (hrenews.sameNames hkeyed))).targets_eq

end NodeType

end Workflow
