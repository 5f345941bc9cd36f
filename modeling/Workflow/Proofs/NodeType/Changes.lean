import Workflow.Proofs.Json.Changes
import Workflow.Proofs.NodeType.Restored

/-!
# Steps between fields and forms as changes

Taking the names out, unwrapping the retries, and decoding transforms or putting them in normal form
are changes under a few keys each (`TransitionRule.strip_eq_alterAll`,
`FormRule.prepare_eq_alterAll`, `FormRule.onTransforms`). They can be made in any order, because a
transform is neither the place of a name nor among the retries (`NodeType.strip_prepare`,
`NodeType.strip_onTransforms`, `NodeType.prepare_onTransforms`).
-/

namespace Workflow

namespace Json

theorem onRecord_onRecord_comm {f g : Fields → Fields} (h : ∀ record, f (g record) = g (f record))
    (v : Json) : (v.onRecord g).onRecord f = (v.onRecord f).onRecord g := by
  cases v with
  | obj record => exact congrArg Json.obj (h record)
  | _ => rfl

/-- The only policy of a list; any other value stays as it is. -/
def onlyPolicy : Json → Json
  | .arr [policy] => policy
  | v => v

theorem unwrapRetries_eq : unwrapRetries
    = onRecord (Fields.alter (fun v => some v.onlyPolicy) "retries") := by
  refine congrArg onRecord (funext fun action => ?_)
  cases hv : action.get? "retries" with
  | none => exact (Fields.alter_eq_self hv).symm
  | some v =>
    rw [Fields.alter_eq_assign hv]
    have hself : Fields.assign action "retries" (some v) = action := Fields.insert_of_get? hv
    cases v with
    | arr items =>
      rcases items with _ | ⟨policy, _ | ⟨_, _⟩⟩
      · exact hself.symm
      · rfl
      · exact hself.symm
    | _ => exact hself.symm

end Json

namespace Fields

theorem decodeAt_eq_alter (fields : Fields) (key : String) :
    fields.decodeAt key = fields.alter Transform.decodeValue key := by
  unfold decodeAt
  cases hv : fields.get? key with
  | none => exact (alter_eq_self hv).symm
  | some v => exact (alter_eq_assign hv).symm

end Fields

namespace TransitionSlot

theorem changeItems_eq_alter (f : List Json → List Json) (fields : Fields) (list : String) :
    changeItems f fields list = fields.alter (fun v => some (v.onList f)) list := by
  unfold changeItems
  cases hv : fields.get? list with
  | none => exact (Fields.alter_eq_self hv).symm
  | some v =>
    rw [Fields.alter_eq_assign hv]
    cases v with
    | arr items => rfl
    | _ => exact (Fields.insert_of_get? hv).symm

/-- An entry of a list with another value in the place of its name. -/
def alterEntry (φ : Json → Option Json) : Json → Json :=
  Json.onRecord (Fields.alter φ transitionKey)

/-- Changes what a slot holds, if it holds something; it is taken out when there is no new value. -/
def alter (φ : Json → Option Json) (s : TransitionSlot) (fields : Fields) : Fields :=
  match s with
  | branch list index => changeItems (·.modify index (alterEntry φ)) fields list
  | s =>
    match s.key? with
    | some key => Fields.alter φ key fields
    | none => fields

theorem clearEntry_eq_alterEntry : clearEntry = alterEntry fun _ => none := by
  rw [clearEntry_eq, alterEntry]
  exact congrArg Json.onRecord (funext fun entry => Fields.erase_eq_alter entry transitionKey)

theorem clear_eq_alter (s : TransitionSlot) (fields : Fields) :
    s.clear fields = s.alter (fun _ => none) fields := by
  cases s with
  | branch list index => rw [clear, alter, clearEntry_eq_alterEntry]
  | error => rfl
  | _ => exact Fields.erase_eq_alter fields _

theorem clearEntry_onRecord {f : Fields → Fields}
    (h : ∀ record : Fields, (f record).erase transitionKey = f (record.erase transitionKey))
    (v : Json) : clearEntry (v.onRecord f) = (clearEntry v).onRecord f := by
  rw [clearEntry_eq]
  exact Json.onRecord_onRecord_comm h v

end TransitionSlot

/-! ### Names -/

namespace TransitionRule

open TransitionSlot

/-- The greatest number of entries that have a port. -/
def mostBranches (r : TransitionRule) : Nat := PortCount.greatest - r.fixed.length

theorem branches_eq (r : TransitionRule) (fields : Fields) :
    r.branches fields = min (r.entries fields).length r.mostBranches := by
  have := r.length_fixed_le
  rw [branches, mostBranches, toNat_portsFor, PortCount.greatest]
  omega

/-- Of the greatest number of entries that have a port, those that there are. -/
theorem onList_mapFirst_branches {r : TransitionRule} {fields : Fields} {list : String}
    (hl : r.list? = some list) {v : Json} (hv : fields.get? list = some v) (f : Json → Json) :
    v.onList (List.mapFirst (r.branches fields) f) = v.onList (List.mapFirst r.mostBranches f) := by
  cases v with
  | arr items =>
    have hitems : r.entries fields = items := by simp only [entries, hl, itemsOf, hv]; rfl
    rw [branches_eq, hitems]
    exact congrArg Json.arr (List.mapFirst_min r.mostBranches f items)
  | _ => rfl

/-- Changes what each slot of a port holds. -/
def onSlots (φ : Json → Option Json) (r : TransitionRule) (fields : Fields) : Fields :=
  (r.slots fields).foldl (fun acc e => e.2.alter φ acc) fields

/-- The changes of values that `onSlots` makes. -/
def slotChanges (φ : Json → Option Json) (r : TransitionRule) :
    List (String × (Json → Option Json)) :=
  r.fixedKeys.map (·, φ) ++ r.list?.toList.map
    (·, fun v => some (v.onList (List.mapFirst r.mostBranches (alterEntry φ))))

theorem onSlots_eq_alterAll (φ : Json → Option Json) (r : TransitionRule) (fields : Fields) :
    r.onSlots φ fields = fields.alterAll (r.slotChanges φ) := by
  have hfixed : r.fixed.foldl (fun acc (s : TransitionSlot) => s.alter φ acc) fields
      = fields.alterAll (r.fixedKeys.map (·, φ)) := by
    cases r <;> rfl
  rw [onSlots, ← List.foldl_map (f := Prod.snd) (g := fun acc (s : TransitionSlot) => s.alter φ acc),
    map_snd_slots, List.foldl_append, hfixed, slotChanges, Fields.alterAll_append]
  cases hl : r.list? with
  | none => rfl
  | some list =>
    have hnot : list ∉ (r.fixedKeys.map fun key => (key, φ)).map Prod.fst := by
      simpa [Function.comp_def] using list_not_mem_fixedKeys hl
    have hget : (fields.alterAll (r.fixedKeys.map (·, φ))).get? list = fields.get? list :=
      Fields.get?_alterAll_of_not_mem hnot
    rw [Option.map_some, Option.getD_some, List.foldl_map]
    refine (foldl_modify_items (alterEntry φ) list _ _).trans ?_
    rw [changeItems_eq_alter]
    refine Fields.alter_congr fun v hv => ?_
    rw [hget] at hv
    exact congrArg some (onList_mapFirst_branches hl hv (alterEntry φ))

theorem clearBranches_map {f : Json → Json} (h : ∀ v, clearEntry (f v) = f (clearEntry v)) (n : Nat)
    (items : List Json) : clearBranches n (items.map f) = (clearBranches n items).map f :=
  List.mapFirst_map h n items

/-- The changes that take the names out of the fields. -/
def clearings (r : TransitionRule) : List (String × (Json → Option Json)) :=
  r.fixedKeys.map (·, fun _ => none) ++
    r.list?.toList.map (·, fun v => some (v.onList (clearBranches r.mostBranches)))

theorem clearings_eq (r : TransitionRule) : r.clearings = r.slotChanges fun _ => none := by
  rw [clearings, slotChanges, ← clearEntry_eq_alterEntry]
  rfl

theorem strip_eq_onSlots (r : TransitionRule) (fields : Fields) :
    r.strip fields = r.onSlots (fun _ => none) fields := by
  rw [strip_eq_foldl_slots, onSlots]
  exact congrArg (fun step => (r.slots fields).foldl step fields)
    (funext fun acc => funext fun e => e.2.clear_eq_alter acc)

theorem strip_eq_alterAll (r : TransitionRule) (fields : Fields) :
    r.strip fields = fields.alterAll r.clearings := by
  rw [strip_eq_onSlots, onSlots_eq_alterAll, clearings_eq]

theorem mem_ownKeys_of_mem_clearings {r : TransitionRule} {c : String × (Json → Option Json)}
    (h : c ∈ r.clearings) : c.1 ∈ r.ownKeys := by
  rcases List.mem_append.1 h with h | h
  · obtain ⟨key, hkey, rfl⟩ := List.mem_map.1 h
    exact List.mem_append_left _ hkey
  · obtain ⟨list, hl, rfl⟩ := List.mem_map.1 h
    exact List.mem_append_right _ hl

theorem nodup_clearings (r : TransitionRule) : (r.clearings.map Prod.fst).Nodup := by
  cases r <;> decide

theorem get?_strip_of_not_mem {r : TransitionRule} {key : String} (h : key ∉ r.ownKeys)
    (fields : Fields) : (r.strip fields).get? key = fields.get? key := by
  rw [strip_eq_alterAll]
  refine Fields.get?_alterAll_of_not_mem fun hmem => h ?_
  obtain ⟨c, hc, rfl⟩ := List.mem_map.1 hmem
  exact mem_ownKeys_of_mem_clearings hc

theorem get?_strip_of_fixed {r : TransitionRule} {fields : Fields} {key : String}
    (h : fields.keys.Nodup) (hkey : key ∈ r.fixedKeys) : (r.strip fields).get? key = none := by
  rw [strip_eq_alterAll, Fields.get?_alterAll_of_mem r.nodup_clearings h
    (List.mem_append_left _ (List.mem_map_of_mem hkey)), Option.bind_fun_none]

theorem get?_strip_list {r : TransitionRule} {list : String} (h : r.list? = some list)
    (fields : Fields) : (r.strip fields).get? list
      = (fields.get? list).map (Json.onList (clearBranches (r.branches fields))) := by
  simp only [strip_eq, h]
  rw [changeItems_eq_alter, Fields.get?_alter_some, get?_clearFixed_of_list h]

theorem clearEntry_clearEntry {v : Json} (h : v.Keyed) :
    clearEntry (clearEntry v) = clearEntry v := by
  cases v with
  | obj entry =>
    refine congrArg Json.obj (Fields.erase_of_not_mem ?_)
    rw [← Fields.get?_eq_none_iff]
    exact Fields.get?_erase_self (Json.KeyedFields.nodup h) transitionKey
  | _ => rfl

theorem take_clearBranches (n : Nat) (items : List Json) :
    (clearBranches n items).take n = (items.take n).map clearEntry :=
  List.take_mapFirst n clearEntry items

theorem drop_clearBranches (n : Nat) (items : List Json) :
    (clearBranches n items).drop n = items.drop n :=
  List.drop_mapFirst n clearEntry items

theorem clearBranches_clearBranches {items : List Json} (h : Json.KeyedItems items) (n : Nat) :
    clearBranches n (clearBranches n items) = clearBranches n items := by
  simp only [clearBranches_eq]
  rw [List.mapFirst_mapFirst]
  refine List.mapFirst_congr fun v hv => clearEntry_clearEntry ?_
  exact Json.keyedItems_iff.1 h v (List.mem_of_mem_take hv)

/-- Names are taken out once. -/
theorem strip_strip (r : TransitionRule) {fields : Fields} (h : Json.KeyedFields fields) :
    r.strip (r.strip fields) = r.strip fields := by
  have hself : (r.clearings.map fun c => (c.1, c.2)) = r.clearings := List.map_id _
  have hcompose := Fields.alterAll_alterAll Prod.snd
    Prod.snd Prod.snd r.nodup_clearings h.nodup fun c hc v hv => ?_
  · rwa [hself, ← strip_eq_alterAll, ← strip_eq_alterAll] at hcompose
  · rcases List.mem_append.1 hc with hc | hc
    · obtain ⟨key, -, rfl⟩ := List.mem_map.1 hc
      rfl
    · obtain ⟨list, -, rfl⟩ := List.mem_map.1 hc
      refine congrArg some ?_
      cases v with
      | arr items => exact congrArg Json.arr (clearBranches_clearBranches (h.of_get? hv) _)
      | _ => rfl

theorem keyed_clearEntry {v : Json} (h : v.Keyed) : (clearEntry v).Keyed := by
  cases v with
  | obj entry => exact Json.KeyedFields.erase h transitionKey
  | _ => exact h

theorem keyed_strip (r : TransitionRule) {fields : Fields} (h : Json.KeyedFields fields) :
    Json.KeyedFields (r.strip fields) := by
  rw [strip_eq_alterAll]
  refine Fields.keyed_alterAll h fun c hc v w hv hw => ?_
  rcases List.mem_append.1 hc with hc | hc
  · obtain ⟨key, -, rfl⟩ := List.mem_map.1 hc
    cases hw
  · obtain ⟨list, -, rfl⟩ := List.mem_map.1 hc
    obtain rfl := Option.some.inj hw
    cases v with
    | arr items =>
      have hitems : Json.KeyedItems items := hv
      refine Json.keyedItems_iff.2 fun u hu => ?_
      rcases List.mem_append.1 hu with hu | hu
      · obtain ⟨item, hitem, rfl⟩ := List.mem_map.1 hu
        exact keyed_clearEntry (Json.keyedItems_iff.1 hitems item (List.mem_of_mem_take hitem))
      · exact Json.keyedItems_iff.1 hitems u (List.mem_of_mem_drop hu)
    | _ => exact hv

end TransitionRule

/-! ### Transforms -/

namespace TransformPlace

/-- The value of the field of a place with its transforms changed. -/
def onTransform (φ : Json → Option Json) : TransformPlace → Json → Option Json
  | field _, v => φ v
  | nested _ key, v => some (v.onRecord (Fields.alter φ key))
  | eachIn _ key, v => some (v.onItems (Json.onRecord (Fields.alter φ key)))

theorem decoded_eq (p : TransformPlace) : p.decoded = p.onTransform Transform.decodeValue := by
  have hdecode : ∀ key : String, (Fields.decodeAt · key) = Fields.alter Transform.decodeValue key :=
    fun key => funext fun fields => Fields.decodeAt_eq_alter fields key
  cases p with
  | field key => rfl
  | nested outer key | eachIn outer key =>
    funext v
    simp only [decoded, onTransform, hdecode key]

theorem decode_eq_alter (p : TransformPlace) (fields : Fields) :
    decode fields p = fields.alter p.decoded p.outer := by
  cases p with
  | field key => exact Fields.decodeAt_eq_alter fields key
  | nested outer key =>
    rw [decode_nested]
    cases hv : fields.get? outer with
    | none => exact (Fields.alter_eq_self hv).symm
    | some v =>
      rw [show (nested outer key).outer = outer from rfl, Fields.alter_eq_assign hv]
      cases v with
      | obj record => rfl
      | _ => exact (Fields.insert_of_get? hv).symm
  | eachIn list key =>
    rw [decode_eachIn, TransitionSlot.changeItems_eq_alter]
    refine Fields.alter_congr fun v _ => ?_
    cases v <;> rfl

end TransformPlace

namespace FormRule

/-- The changes that `prepare` makes. -/
def preparations : FormRule → List (String × (Json → Option Json))
  | loop _ => [("action", fun v => some v.unwrapRetries)]
  | _ => []

theorem prepare_eq_alterAll (r : FormRule) (fields : Fields) :
    r.prepare fields = fields.alterAll r.preparations := by
  cases r with
  | loop places =>
    show unwrapRetries fields = fields.alter _ "action"
    unfold unwrapRetries
    cases hv : fields.get? "action" with
    | none => exact (Fields.alter_eq_self hv).symm
    | some v =>
      rw [Fields.alter_eq_assign hv]
      have hself : fields.assign "action" (some v) = fields := Fields.insert_of_get? hv
      cases v with
      | obj action =>
        simp only [Json.unwrapRetries, Json.onRecord]
        cases hretries : Fields.get? action "retries" with
        | none => exact hself.symm
        | some w =>
          cases w with
          | arr items =>
            rcases items with _ | ⟨policy, _ | ⟨_, _⟩⟩
            · exact hself.symm
            · rfl
            · exact hself.symm
          | _ => exact hself.symm
      | _ => exact hself.symm
  | _ => rfl

/-- The fields with all transforms changed. -/
def onTransforms (φ : Json → Option Json) (r : FormRule) (fields : Fields) : Fields :=
  fields.alterAll (r.places.map fun p => (p.outer, p.onTransform φ))

/-- A relation of two forms that a change at each place keeps is kept by changing all transforms. -/
theorem onTransforms_rel {r : FormRule} {φ : Json → Option Json} {R : Fields → Fields → Prop}
    {a b : Fields} (h : R a b)
    (hstep : ∀ p ∈ r.places, ∀ a b, R a b →
      R (a.alter (p.onTransform φ) p.outer) (b.alter (p.onTransform φ) p.outer)) :
    R (r.onTransforms φ a) (r.onTransforms φ b) := by
  simp only [onTransforms, Fields.alterAll, List.foldl_map]
  exact List.foldl_rel h hstep

/-- What a change at each place keeps is kept by changing all transforms. -/
theorem onTransforms_induction {r : FormRule} {φ : Json → Option Json} {P : Fields → Prop}
    {a : Fields} (h : P a)
    (hstep : ∀ p ∈ r.places, ∀ a, P a → P (a.alter (p.onTransform φ) p.outer)) :
    P (r.onTransforms φ a) :=
  onTransforms_rel (R := fun a _ => P a) (b := a) h fun p hp a _ => hstep p hp a

theorem toForm_eq_onTransforms (r : FormRule) (fields : Fields) :
    r.toForm fields = r.onTransforms Transform.decodeValue (r.prepare fields) := by
  rw [toForm_eq, onTransforms, Fields.alterAll, List.foldl_map]
  refine congrArg (fun step => r.places.foldl step _) (funext fun acc => funext fun p => ?_)
  rw [TransformPlace.decode_eq_alter, TransformPlace.decoded_eq]

end FormRule

/-! ### In any order -/

namespace NodeType

open TransitionSlot

variable {t : NodeType}

/-- Names are taken out beside the transforms. -/
theorem commute_clearing {r : TransitionRule} {p : TransformPlace} (h : p.apart r = true)
    (φ : Json → Option Json) {c : String × (Json → Option Json)} (hc : c ∈ r.clearings) :
    Fields.Commute c (p.outer, p.onTransform φ) := by
  obtain ⟨hfixed, hlist⟩ := TransformPlace.outer_of_apart h
  rcases List.mem_append.1 hc with hc | hc
  · obtain ⟨key, hkey, rfl⟩ := List.mem_map.1 hc
    exact .of_ne fun he : key = p.outer => hfixed (he ▸ hkey)
  · obtain ⟨list, hl, rfl⟩ := List.mem_map.1 hc
    by_cases he : list = p.outer
    · obtain ⟨key, hp, hne⟩ := hlist (he ▸ Option.mem_toList.1 hl)
      subst he
      rw [hp]
      refine Fields.Commute.of_comp (fun v => ?_) p.outer
      cases v with
      | arr items =>
        refine congrArg Json.arr (TransitionRule.clearBranches_map (fun v => ?_) _ items)
        refine clearEntry_onRecord (fun record => ?_) v
        rw [Fields.erase_eq_alter, Fields.erase_eq_alter, Fields.alter_comm hne.symm]
      | _ => rfl
    · exact .of_ne he

/-- Retries are unwrapped beside the transforms. -/
theorem commute_preparation {r : FormRule} {p : TransformPlace} (h : p.keepsRetries = true)
    (φ : Json → Option Json) {c : String × (Json → Option Json)} (hc : c ∈ r.preparations) :
    Fields.Commute c (p.outer, p.onTransform φ) := by
  cases r with
  | loop places =>
    obtain rfl := List.mem_singleton.1 hc
    by_cases he : p.outer = "action"
    · cases p with
      | field key => exact absurd he (of_decide_eq_true h)
      | nested outer key =>
        obtain rfl : outer = "action" := he
        have hkey : key ≠ "retries" := by simpa [TransformPlace.keepsRetries] using h
        refine Fields.Commute.of_comp (fun v => ?_) "action"
        rw [Json.unwrapRetries_eq]
        exact Json.onRecord_onRecord_comm (Fields.alter_comm hkey.symm _ φ) v
      | eachIn list key =>
        obtain rfl : list = "action" := he
        refine Fields.Commute.of_comp (fun v => ?_) "action"
        cases v <;> rfl
    · exact .of_ne (Ne.symm he)
  | _ => cases hc

theorem not_mem_preparations (hapart : t.apart = true) {key : String}
    (hkey : key ∈ t.transitions.ownKeys) : key ∉ t.form.preparations.map Prod.fst := by
  unfold apart at hapart
  cases hform : t.form with
  | loop places =>
    rw [hform] at hapart
    intro hmem
    obtain rfl := List.mem_singleton.1 hmem
    exact of_decide_eq_true (Bool.and_eq_true_iff.1 hapart).2 hkey
  | _ => exact List.not_mem_nil

theorem strip_prepare (hapart : t.apart = true) (fields : Fields) :
    t.transitions.strip (t.form.prepare fields)
      = t.form.prepare (t.transitions.strip fields) := by
  simp only [TransitionRule.strip_eq_alterAll, FormRule.prepare_eq_alterAll]
  refine Fields.alterAll_comm (fun c hc d hd => .of_ne fun he => ?_) fields
  exact not_mem_preparations hapart (TransitionRule.mem_ownKeys_of_mem_clearings hc)
    (he ▸ List.mem_map_of_mem hd)

theorem strip_onTransforms (hapart : t.apart = true) (φ : Json → Option Json) (fields : Fields) :
    t.transitions.strip (t.form.onTransforms φ fields)
      = t.form.onTransforms φ (t.transitions.strip fields) := by
  simp only [TransitionRule.strip_eq_alterAll, FormRule.onTransforms]
  refine Fields.alterAll_comm (fun c hc d hd => ?_) fields
  obtain ⟨p, hp, rfl⟩ := List.mem_map.1 hd
  exact commute_clearing (apart_places hapart p hp) φ hc

theorem prepare_onTransforms (hseparate : t.separate = true) (φ : Json → Option Json)
    (fields : Fields) :
    t.form.prepare (t.form.onTransforms φ fields)
      = t.form.onTransforms φ (t.form.prepare fields) := by
  simp only [FormRule.prepare_eq_alterAll, FormRule.onTransforms]
  refine Fields.alterAll_comm (fun c hc d hd => ?_) fields
  obtain ⟨p, hp, rfl⟩ := List.mem_map.1 hd
  exact commute_preparation (List.all_eq_true.1 (Bool.and_eq_true_iff.1 hseparate).2 p hp) φ hc

end NodeType

end Workflow
