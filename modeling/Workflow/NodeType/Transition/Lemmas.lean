import Workflow.NodeType.Transition

/-!
# Names in fields, slot by slot

`TransitionRule.targets` and `TransitionRule.strip` pass over the fields once. This file shows that
they do what the slots of the ports say: `targets_eq_filterMap_slots` reads each slot in port order,
and `strip_eq_foldl_slots` clears them one after the other.
-/

namespace Workflow

namespace TransitionSlot

theorem changeItems_id (fields : Fields) (list : String) :
    changeItems (fun items => items) fields list = fields := by
  unfold changeItems
  split
  · exact Fields.insert_of_get? ‹_›
  · rfl

theorem changeItems_changeItems (f g : List Json → List Json) (fields : Fields) (list : String) :
    changeItems f (changeItems g fields list) list
      = changeItems (fun items => f (g items)) fields list := by
  unfold changeItems
  split
  next items h =>
    split at h
    next items' h' =>
      rw [Fields.get?_insert_self] at h
      simp only [Option.some.injEq, Json.arr.injEq] at h
      simp only [Fields.insert_insert, ← h]
    next h' => exact absurd h (h' items)
  next h =>
    split at h
    next items' h' => simp [Fields.get?_insert_self] at h
    next h' => rfl

theorem modify_take_append_drop (f : Json → Json) (items : List Json) (n : Nat) :
    ((items.take n).map f ++ items.drop n).modify n f
      = (items.take (n + 1)).map f ++ items.drop (n + 1) := by
  induction items generalizing n with
  | nil => simp
  | cons v rest ih =>
    cases n with
    | zero => simp
    | succ n => simpa using ih n

/-- Changing the first `n` items of a list one by one. -/
theorem foldl_modify_items (f : Json → Json) (list : String) (n : Nat) (fields : Fields) :
    (List.range n).foldl (fun acc i => changeItems (·.modify i f) acc list) fields
      = changeItems (fun items => (items.take n).map f ++ items.drop n) fields list := by
  induction n with
  | zero => simp [changeItems_id]
  | succ n ih =>
    rw [List.range_succ, List.foldl_append, ih]
    simp only [List.foldl_cons, List.foldl_nil, changeItems_changeItems, modify_take_append_drop]

/-- Clearing the first `n` branches of a list one by one clears the first `n` entries. -/
theorem foldl_clear_branch (list : String) (n : Nat) (fields : Fields) :
    ((List.range n).map (branch list)).foldl (fun acc s => s.clear acc) fields
      = changeItems (fun items => (items.take n).map clearEntry ++ items.drop n) fields list := by
  rw [List.foldl_map]
  exact foldl_modify_items clearEntry list n fields

end TransitionSlot

namespace TransitionRule

theorem length_fixed_le (r : TransitionRule) : r.fixed.length ≤ 2 := by
  cases r <;> decide

theorem toNat_portsFor (r : TransitionRule) (fields : Fields) :
    (r.portsFor fields).toNat
      = min (r.fixed.length + (r.entries fields).length) PortCount.greatest :=
  PortCount.toNat_saturate _

theorem slot?_ofNat (r : TransitionRule) {i : Nat} (h : i < 65535) :
    r.slot? (UInt16.ofNat (i + 1)) = r.slotAt? i := by
  rw [slot?, UInt16.toNat_ofNat', Nat.mod_eq_of_lt (by omega)]

theorem slots_eq (r : TransitionRule) (fields : Fields) :
    r.slots fields = (List.range (r.portsFor fields).toNat).filterMap fun i =>
      (r.slotAt? i).map (UInt16.ofNat (i + 1), ·) := by
  have h : ∀ i ∈ List.range (r.portsFor fields).toNat,
      (r.slot? (UInt16.ofNat (i + 1))).map (UInt16.ofNat (i + 1), ·)
        = (r.slotAt? i).map (UInt16.ofNat (i + 1), ·) := by
    intro i hi
    have := (r.portsFor fields).toNat_lt
    rw [List.mem_range] at hi
    rw [slot?_ofNat r (by omega)]
  have := congrArg (List.filterMap id) (List.map_congr_left h)
  simp only [List.filterMap_map] at this
  exact (List.filterMap_map ..).trans this

theorem read_slotAt? (r : TransitionRule) (fields : Fields) (i : Nat) :
    (r.slotAt? i).bind (·.read fields) = ((r.names fields)[i]?).join := by
  simp only [slotAt?, names, List.getElem?_append, List.getElem?_map, List.length_map]
  by_cases h : i < r.fixed.length
  · simp [h]
  · simp only [List.getElem?_eq_none (Nat.le_of_not_lt h), h, if_false, entries]
    cases r.list? with
    | none => simp
    | some list =>
      simp only [Option.map_some, Option.bind_some, TransitionSlot.read]
      cases (TransitionSlot.itemsOf fields list)[i - r.fixed.length]? <;> rfl

theorem zip_filterMap_range {α β : Type} (names : List (Option β)) (f : Nat → α) (n : Nat) :
    (((List.range n).map f).zip names).filterMap (fun (p, name?) => name?.map (p, ·))
      = (List.range n).filterMap fun i => names[i]?.join.map (f i, ·) := by
  induction n generalizing names f with
  | zero => rfl
  | succ n ih =>
    rw [List.range_succ_eq_map]
    cases names with
    | nil => simp
    | cons x rest =>
      simp only [List.map_cons, List.map_map, List.zip_cons_cons, List.filterMap_cons, ih,
        List.filterMap_map]
      cases x <;> rfl

/-- The names in the fields are what the slots of the ports hold. -/
theorem targets_eq_filterMap_slots (r : TransitionRule) (fields : Fields) :
    r.targets fields = (r.slots fields).filterMap fun (p, s) => (s.read fields).map (p, ·) := by
  rw [targets, Port.all, zip_filterMap_range, slots_eq, List.filterMap_filterMap]
  congr 1
  funext i
  rw [← read_slotAt?]
  cases r.slotAt? i <;> rfl

/-- The slots of the ports: the fixed ones, then a branch for each entry that has a port. -/
theorem map_snd_slots (r : TransitionRule) (fields : Fields) :
    (r.slots fields).map Prod.snd = r.fixed ++
      (r.list?.map fun list =>
        (List.range ((r.portsFor fields).toNat - r.fixed.length)).map (.branch list)).getD [] := by
  have hle : r.fixed.length ≤ (r.portsFor fields).toNat := by
    have := r.length_fixed_le
    rw [toNat_portsFor, PortCount.greatest]
    omega
  obtain ⟨m, hm⟩ := Nat.exists_eq_add_of_le hle
  rw [slots_eq, List.map_filterMap, hm, Nat.add_sub_cancel_left, List.range_add,
    List.filterMap_append, List.filterMap_map]
  congr 1
  · cases r <;> rfl
  · cases h : r.list? with
    | none =>
      cases r <;> simp_all [slotAt?, fixed, list?, toNat_portsFor, entries, PortCount.greatest]
    | some list =>
      simp only [Option.map_some, Option.getD_some]
      rw [← List.filterMap_eq_map]
      congr 1
      funext i
      simp [slotAt?, h]

/-- The fields without names are the fields with every slot of a port cleared. -/
theorem strip_eq_foldl_slots (r : TransitionRule) (fields : Fields) :
    r.strip fields = (r.slots fields).foldl (fun acc e => e.2.clear acc) fields := by
  rw [← List.foldl_map (f := Prod.snd) (g := fun acc (s : TransitionSlot) => s.clear acc),
    map_snd_slots, List.foldl_append]
  cases h : r.list? with
  | none => simp [strip, h]
  | some list =>
    simp only [strip, h, Option.map_some, Option.getD_some, TransitionSlot.foldl_clear_branch]

end TransitionRule

end Workflow
