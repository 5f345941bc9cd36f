import Workflow.NodeType.Transition.Lemmas
import Workflow.Proofs.Json.Keyed
import Workflow.Proofs.Lists

/-!
# Names behind ports

What the slots of a rule hold once its fields are stripped: nothing (`targets_strip`), as long as no
record repeats a key. The error output is the port of the slot that holds no name
(`slot?_eq_some_error_iff`).
-/

namespace Workflow

namespace TransitionSlot

/-! ### Slots with a key of their own -/

theorem read_of_key {s : TransitionSlot} {key : String} (h : s.key? = some key) (fields : Fields) :
    s.read fields = (fields.get? key).bind Json.str? := by
  cases s <;> cases h <;> rfl

theorem write_of_key {s : TransitionSlot} {key : String} (h : s.key? = some key) (fields : Fields)
    (name : String) : s.write fields name = some (fields.insert key (.str name)) := by
  cases s <;> cases h <;> rfl

theorem write_eq_some_iff {s : TransitionSlot} {fields written : Fields} {name : String} :
    s.write fields name = some written ↔ s.put fields name = (written, true) := by
  unfold write
  split
  next put h => rw [h, Option.some.injEq, Prod.mk.injEq, and_iff_left rfl]
  next put h => rw [h]; exact iff_of_false nofun nofun

/-! ### Entries of a list -/

/-- A name is put into an entry that is a record. -/
theorem write_branch_eq_some {list : String} {index : Nat} {fields written : Fields}
    {name : String} (h : (branch list index).write fields name = some written) :
    ∃ entry, (itemsOf fields list)[index]? = some (.obj entry) ∧ written =
      changeItems (·.set index (.obj (Fields.insert entry transitionKey (.str name)))) fields list := by
  rw [write_eq_some_iff, put] at h
  split at h
  next entry hentry => exact ⟨entry, hentry, (Prod.mk.inj h).1.symm⟩
  next => cases h

theorem get?_changeItems_of_ne (f : List Json → List Json) (fields : Fields) {list key : String}
    (h : key ≠ list) : (changeItems f fields list).get? key = fields.get? key := by
  unfold changeItems
  split
  · exact Fields.get?_insert_of_ne fields _ h
  · rfl

theorem itemsOf_changeItems {f : List Json → List Json} (hf : f [] = []) (fields : Fields)
    (list : String) : itemsOf (changeItems f fields list) list = f (itemsOf fields list) := by
  unfold changeItems itemsOf
  split
  next items h => rw [Fields.get?_insert_self, h]; rfl
  next h =>
    cases hv : fields.get? list with
    | none => exact hf.symm
    | some v =>
      cases v with
      | arr items => exact absurd hv (h items)
      | _ => exact hf.symm

theorem itemsOf_congr {fields fields' : Fields} {list : String}
    (h : fields.get? list = fields'.get? list) : itemsOf fields list = itemsOf fields' list := by
  rw [itemsOf, itemsOf, h]

theorem keyedItems_itemsOf {fields : Fields} (h : Json.KeyedFields fields) (list : String) :
    Json.KeyedItems (itemsOf fields list) := by
  unfold itemsOf
  cases hv : fields.get? list with
  | none => trivial
  | some v =>
    have hkeyed := h.of_get? hv
    cases v with
    | arr items => exact hkeyed
    | _ => trivial

theorem entryName?_clearEntry {v : Json} (h : v.Keyed) : entryName? (clearEntry v) = none := by
  cases v with
  | obj entry =>
    have hnone := Fields.get?_erase_self (Json.KeyedFields.nodup h) transitionKey
    simp [entryName?, clearEntry, Json.obj?, hnone]
  | _ => rfl

end TransitionSlot

namespace TransitionRule

open TransitionSlot

theorem slot?_of_mem_slots {r : TransitionRule} {fields : Fields} {p : Port} {slot : TransitionSlot}
    (h : (p, slot) ∈ r.slots fields) : r.slot? p = some slot := by
  obtain ⟨q, -, hq⟩ := List.mem_filterMap.1 h
  obtain ⟨s, hs, heq⟩ := Option.map_eq_some_iff.1 hq
  cases heq
  exact hs

theorem slot?_eq_some_error_iff {r : TransitionRule} {p : Port} :
    r.slot? p = some .error ↔ r.errorPort? = some p := by
  have hp := p.toNat_lt
  rw [errorPort?, Option.map_eq_some_iff, slot?]
  constructor
  · intro h
    cases hn : p.toNat with
    | zero => simp [hn] at h
    | succ i =>
      simp only [hn] at h
      refine ⟨i, ?_, ?_⟩
      · rcases i with _ | _ | i
        · cases r <;> simp_all [slotAt?, fixed, list?]
        · cases r <;> simp_all [slotAt?, fixed, list?] <;> decide
        · cases r <;> simp_all [slotAt?, fixed, list?]
      · rw [← hn, UInt16.ofNat_toNat]
  · rintro ⟨i, hi, rfl⟩
    cases r <;> cases hi <;> rfl

/-- How many entries of the list of a rule have a port. -/
def branches (r : TransitionRule) (fields : Fields) : Nat :=
  (r.portsFor fields).toNat - r.fixed.length

theorem toNat_portsFor_eq (r : TransitionRule) (fields : Fields) :
    (r.portsFor fields).toNat = r.fixed.length + r.branches fields := by
  have := r.length_fixed_le
  rw [branches, toNat_portsFor, PortCount.greatest]
  omega

theorem toNat_portsFor_le (r : TransitionRule) (fields : Fields) (least : PortCount) :
    (r.portsFor fields).toNat ≤ (r.outputCount fields least).toNat := by
  show _ ≤ (if r.portsFor fields ≤ least then least else r.portsFor fields).toNat
  split
  next h => exact UInt16.le_iff_toNat_le.1 h
  next => exact Nat.le_refl _

/-- Clears the entries that have a port. -/
def clearBranches (n : Nat) (items : List Json) : List Json :=
  (items.take n).map clearEntry ++ items.drop n

theorem clearBranches_eq (n : Nat) (items : List Json) :
    clearBranches n items = items.mapFirst n clearEntry := rfl

theorem clearBranches_nil (n : Nat) : clearBranches n [] = [] := List.mapFirst_nil n clearEntry

theorem length_clearBranches (n : Nat) (items : List Json) :
    (clearBranches n items).length = items.length :=
  List.length_mapFirst n clearEntry items

/-- The fields without the fixed slots. -/
def clearFixed (r : TransitionRule) (fields : Fields) : Fields :=
  r.fixed.foldl (fun acc s => s.clear acc) fields

theorem strip_eq (r : TransitionRule) (fields : Fields) :
    r.strip fields = match r.list? with
      | some list => changeItems (clearBranches (r.branches fields)) (r.clearFixed fields) list
      | none => r.clearFixed fields := rfl

/-- The fixed slots are fields of their own, and none of them is the list of the others. -/
theorem get?_clearFixed_of_list {r : TransitionRule} {list : String} (h : r.list? = some list)
    (fields : Fields) : (r.clearFixed fields).get? list = fields.get? list := by
  cases r <;> cases h <;> first
    | rfl
    | exact Fields.get?_erase_of_ne fields (by decide)

theorem entries_strip (r : TransitionRule) (fields : Fields) :
    r.entries (r.strip fields) = clearBranches (r.branches fields) (r.entries fields) := by
  rw [strip_eq]
  unfold entries
  cases h : r.list? with
  | none => exact (clearBranches_nil _).symm
  | some list =>
    simp only
    rw [itemsOf_changeItems (clearBranches_nil _), itemsOf_congr (get?_clearFixed_of_list h fields)]

theorem portsFor_strip (r : TransitionRule) (fields : Fields) :
    r.portsFor (r.strip fields) = r.portsFor fields := by
  rw [portsFor, portsFor, entries_strip, length_clearBranches]

theorem keyed_entries {r : TransitionRule} {fields : Fields} (h : Json.KeyedFields fields) :
    ∀ v ∈ r.entries fields, v.Keyed := by
  unfold entries
  cases r.list? with
  | none => exact nofun
  | some list => exact Json.keyedItems_iff.1 (keyedItems_itemsOf h list)

/-- A fixed slot holds nothing after it was cleared. -/
theorem read_fixed_strip {r : TransitionRule} {fields : Fields} (h : fields.keys.Nodup)
    {s : TransitionSlot} (hs : s ∈ r.fixed) : s.read (r.strip fields) = none := by
  cases r with
  | single =>
    have hnone := Fields.get?_erase_self h transitionKey
    rcases List.mem_cons.1 hs with rfl | hs
    · exact congrArg (·.bind Json.str?) hnone
    · obtain rfl := List.mem_singleton.1 hs
      rfl
  | conditional =>
    have hnone := Fields.get?_erase_self h "defaultTransition"
    rcases List.mem_cons.1 hs with rfl | hs
    · refine congrArg (·.bind Json.str?) (Eq.trans ?_ hnone)
      exact get?_changeItems_of_ne _ _ (by decide)
    · obtain rfl := List.mem_singleton.1 hs
      rfl
  | race =>
    obtain rfl := List.mem_singleton.1 hs
    rfl
  | handlers => cases hs
  | entry =>
    have hnone := Fields.get?_erase_self h "state"
    obtain rfl := List.mem_singleton.1 hs
    exact congrArg (·.bind Json.str?) hnone

theorem targets_eq_filterMap_names (r : TransitionRule) (fields : Fields) :
    r.targets fields = (List.range (r.portsFor fields).toNat).filterMap fun i =>
      ((r.names fields)[i]?).join.map (UInt16.ofNat (i + 1), ·) := by
  rw [targets, Port.all, zip_filterMap_range]

/-- Stripped fields name no state. -/
theorem targets_strip {r : TransitionRule} {fields : Fields} (h : Json.KeyedFields fields) :
    r.targets (r.strip fields) = [] := by
  rw [targets_eq_filterMap_names, portsFor_strip, List.filterMap_eq_nil_iff]
  intro i hi
  rw [List.mem_range, toNat_portsFor_eq] at hi
  suffices hnone : ((r.names (r.strip fields))[i]?).join = none by rw [hnone]; rfl
  rw [names, List.getElem?_append, List.length_map]
  split
  next hlt =>
    rw [List.getElem?_map, List.getElem?_eq_getElem hlt]
    exact read_fixed_strip h.nodup (List.getElem_mem hlt)
  next hge =>
    have hbranch : i - r.fixed.length < r.branches fields := by omega
    rw [entries_strip, List.getElem?_map, clearBranches_eq, List.getElem?_mapFirst hbranch]
    cases hv : (r.entries fields)[i - r.fixed.length]? with
    | none => rfl
    | some v => exact entryName?_clearEntry (keyed_entries h v (List.mem_of_getElem? hv))

end TransitionRule

end Workflow
