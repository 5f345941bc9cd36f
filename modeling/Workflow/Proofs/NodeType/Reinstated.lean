import Workflow.Proofs.NodeType.Changes

/-!
# Taking names out and putting them back

The names in the fields of a state, each with its port, are all that `TransitionRule.strip` takes out
but for values that are no names: writing every name behind its port gives the fields back, aside
from the order of keys (`TransitionRule.strip_reinstated`). It does so for fields of any shape. The
list of branches may be missing or be no list, its items need not be records, and the ones that are
beyond the last port are neither taken out nor put back.
-/

namespace Workflow

namespace TransitionSlot

/-- An entry that lost its name and got it back has lost what was no name. -/
theorem alike_withName {v : Json} (hkeyed : v.Keyed) :
    Json.Alike (withName (entryName? v) (clearEntry v)) (alterEntry Json.nameOnly v) := by
  have hcleared : clearEntry ((clearEntry v).onRecord id) = clearEntry v := by
    rw [clearEntry_onRecord fun _ => rfl, TransitionRule.clearEntry_clearEntry hkeyed]
    cases v <;> rfl
  have halike := alike_named hkeyed
  rwa [hcleared] at halike

end TransitionSlot

namespace TransitionRule

open TransitionSlot

variable {r : TransitionRule} {fields : Fields}

/-! ### What the slots hold after a change -/

theorem map_fst_slotChanges (r : TransitionRule) (φ : Json → Option Json) :
    (r.slotChanges φ).map Prod.fst = r.ownKeys := by
  cases r <;> rfl

theorem nodup_slotChanges (r : TransitionRule) (φ : Json → Option Json) :
    ((r.slotChanges φ).map Prod.fst).Nodup :=
  r.map_fst_slotChanges φ ▸ r.nodup_ownKeys

theorem get?_onSlots_of_fixed (h : fields.keys.Nodup) (φ : Json → Option Json) {key : String}
    (hkey : key ∈ r.fixedKeys) : (r.onSlots φ fields).get? key = (fields.get? key).bind φ := by
  rw [onSlots_eq_alterAll]
  exact Fields.get?_alterAll_of_mem (r.nodup_slotChanges φ) h
    (List.mem_append_left _ (List.mem_map_of_mem hkey))

theorem get?_onSlots_of_list (h : fields.keys.Nodup) (φ : Json → Option Json) {list : String}
    (hl : r.list? = some list) : (r.onSlots φ fields).get? list
      = (fields.get? list).map (Json.onList (List.mapFirst (r.branches fields) (alterEntry φ))) := by
  rw [onSlots_eq_alterAll, Fields.get?_alterAll_of_mem (r.nodup_slotChanges φ) h
    (List.mem_append_right _ (List.mem_map_of_mem (Option.mem_toList.2 hl)))]
  cases hv : fields.get? list with
  | none => rfl
  | some v => exact congrArg some (onList_mapFirst_branches hl hv (alterEntry φ)).symm

theorem get?_onSlots_of_not_mem (φ : Json → Option Json) {key : String} (hkey : key ∉ r.ownKeys) :
    (r.onSlots φ fields).get? key = fields.get? key := by
  rw [onSlots_eq_alterAll]
  exact Fields.get?_alterAll_of_not_mem (by rwa [map_fst_slotChanges])

/-! ### Names behind ports -/

/-- Writes names into the slots of their ports; nothing when there is no place for one of them. -/
def writeTargets (r : TransitionRule) (fields : Fields) (targets : List (Port × String)) :
    Option Fields :=
  targets.foldlM (fun acc target => do (← r.slot? target.1).write acc target.2) fields

/-- The ports of the names in the fields lead to the slots that hold them. -/
theorem writeTargets_targets (form fields : Fields) :
    r.writeTargets form (r.targets fields) = Compile.writeAll form (r.held fields) := by
  rw [targets_eq_filterMap_slots, held]
  have hslots : ∀ e ∈ r.slots fields, r.slot? e.1 = some e.2 := fun _ he => slot?_of_mem_slots he
  generalize r.slots fields = slots at hslots
  induction slots generalizing form with
  | nil => rfl
  | cons e rest ih =>
    obtain ⟨p, s⟩ := e
    have ih := fun form => ih form fun e he => hslots e (List.mem_cons_of_mem _ he)
    have hslot : r.slot? p = some s := hslots (p, s) List.mem_cons_self
    cases hname : s.read fields with
    | none => simpa only [List.map_cons, List.filterMap_cons, hname, Option.map_none] using ih form
    | some name =>
      simp only [List.map_cons, List.filterMap_cons, hname, Option.map_some, writeTargets,
        Compile.writeAll, List.foldlM_cons, hslot]
      exact congrArg (Option.bind (s.write form name)) (funext ih)

/-- All names are written back, and only values that are no names are missing. -/
theorem writeTargets_strip (h : Json.KeyedFields fields) :
    ∃ result, r.writeTargets (r.strip fields) (r.targets fields) = some result ∧
      Json.Alike (.obj result) (.obj (r.onSlots Json.nameOnly fields)) := by
  have hrecord : ∀ v name, entryName? v = some name → ∃ entry, clearEntry v = .obj entry := by
    intro v name hname
    cases v with
    | obj entry => exact ⟨_, rfl⟩
    | _ => cases hname
  obtain ⟨result, hresult, hnodup, hfixed, hlist, hother⟩ := writeAll_held
    (r.keyed_strip h).nodup (fun _ hkey => get?_strip_of_fixed h.nodup hkey)
    (fun _ hl => get?_strip_list hl fields) hrecord
  refine ⟨result, (writeTargets_targets _ fields).trans hresult,
    (Json.alike_obj_iff hnodup).2 fun key => ?_⟩
  by_cases hown : key ∈ r.ownKeys
  · rcases mem_ownKeys_iff.1 hown with hkey | hl
    · rw [hfixed key hkey, get?_onSlots_of_fixed h.nodup _ hkey]
      exact Json.alikeOption_refl fun _ => Json.keyed_of_bind_nameOnly
    · rw [hlist key hl, get?_onSlots_of_list h.nodup _ hl]
      cases hv : fields.get? key with
      | none => trivial
      | some v =>
        cases v with
        | arr items =>
          have hitems := Json.keyedItems_iff.1 (h.of_get? hv)
          refine Json.alikeItems_iff.2 (List.rel_append ?_ ?_)
          · refine List.forall₂_map_left_iff.2 (List.forall₂_map_right_iff.2
              (List.forall₂_same.2 fun v hv => ?_))
            exact alike_withName (hitems v (List.mem_of_mem_take hv))
          · exact List.forall₂_same.2 fun v hv => Json.alike_refl (hitems v (List.mem_of_mem_drop hv))
        | _ => exact Json.alike_refl (h.of_get? hv)
  · rw [hother key hown, get?_strip_of_not_mem hown, get?_onSlots_of_not_mem _ hown]
    exact Json.alikeOption_refl fun _ hv => h.of_get? hv

/-- No list gets longer or shorter, unless it is in the place of a name. -/
theorem length_itemsOf_strip (r : TransitionRule) (fields : Fields) {list : String}
    (h : list ∉ r.fixedKeys) :
    (itemsOf (r.strip fields) list).length = (itemsOf fields list).length := by
  by_cases hl : r.list? = some list
  · have hlength := congrArg List.length (r.entries_strip fields)
    simpa only [entries, hl, length_clearBranches] using hlength
  · have hown : list ∉ r.ownKeys := by rw [mem_ownKeys_iff, not_or]; exact ⟨h, hl⟩
    rw [itemsOf_congr (get?_strip_of_not_mem hown fields)]

/-- Names that are taken out and written back. The fields are then as they were, aside from the order
of keys and from values in the slots that are no names. Without their names the fields name no state,
take as many ports as before, have lists of the same lengths, and have no names to lose. -/
theorem strip_reinstated (r : TransitionRule) {fields : Fields} (h : Json.KeyedFields fields) :
    (∃ result, r.writeTargets (r.strip fields) (r.targets fields) = some result ∧
      Json.Alike (.obj result) (.obj (r.onSlots Json.nameOnly fields))) ∧
      r.targets (r.strip fields) = [] ∧
      r.portsFor (r.strip fields) = r.portsFor fields ∧
      (∀ list, list ∉ r.fixedKeys →
        (itemsOf (r.strip fields) list).length = (itemsOf fields list).length) ∧
      r.strip (r.strip fields) = r.strip fields :=
  ⟨writeTargets_strip h, targets_strip h, r.portsFor_strip fields,
    fun _ => r.length_itemsOf_strip fields, r.strip_strip h⟩

/-- Fields with a name among other keys, an item that is no record, and values that are no names. -/
def branchFields : Fields :=
  [("defaultTransition", .null),
    ("conditions", .arr [.str "a", .obj [("transition", .str "b"), ("when", .str "x")],
      .obj [("transition", .bool true)]]),
    ("transition", .str "c")]

theorem branchFields_reinstated : Json.KeyedFields branchFields ∧
    (∃ result, conditional.writeTargets (conditional.strip branchFields) [(4, "b")] = some result ∧
      Json.Alike (.obj result) (.obj
        [("conditions", .arr [.str "a", .obj [("transition", .str "b"), ("when", .str "x")],
          .obj []]), ("transition", .str "c")])) := by
  have hkeyed : Json.KeyedFields branchFields := by decide
  exact ⟨hkeyed, (strip_reinstated conditional hkeyed).1⟩

end TransitionRule

end Workflow
