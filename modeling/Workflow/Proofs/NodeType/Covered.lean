import Workflow.Proofs.NodeType.Settled

/-!
# Branches beyond the ports

A list of branches may be longer than there are ports. It is not true that every name in such a list
is behind a port, and that taking the names out leaves none (`TransitionRule.Covers`): the count of
ports stops at the greatest one, so the entries that come after it are passed over
(`TransitionRule.crowdedFields_not_covered`).

What holds is that the first entries of every list are covered, as many as there are ports behind the
fixed ones: 65533 conditions, 65534 events, 65535 error handlers. The later ones are left as they are,
with their names in them (`TransitionRule.branches_covered`).
-/

namespace Workflow

namespace TransitionRule

open TransitionSlot

variable {r : TransitionRule} {fields : Fields} {i : Nat}

/-- Every name in the list of branches is behind a port, and no record of the list has a transition
once the names are taken out. -/
structure Covers (r : TransitionRule) (fields : Fields) : Prop where
  named : ∀ v ∈ r.entries fields, ∀ name, entryName? v = some name →
    ∃ port, (port, name) ∈ r.targets fields
  cleared : ∀ record, .obj record ∈ r.entries (r.strip fields) →
    Fields.get? record transitionKey = none

/-! ### Entries that have a port -/

theorem toNat_branchPort (h : i < r.mostBranches) :
    (UInt16.ofNat (r.fixed.length + i + 1)).toNat = r.fixed.length + i + 1 := by
  rw [mostBranches, PortCount.greatest] at h
  rw [UInt16.toNat_ofNat', Nat.mod_eq_of_lt (by omega)]

theorem getElem?_names_branch (r : TransitionRule) (fields : Fields) (i : Nat) :
    (r.names fields)[r.fixed.length + i]? = (r.entries fields)[i]?.map entryName? := by
  rw [names, List.getElem?_append_right (by rw [List.length_map]; omega), List.length_map,
    Nat.add_sub_cancel_left, List.getElem?_map]

/-- The name of an entry is behind the port of the entry. -/
theorem mem_targets_branch (h : i < r.mostBranches) {v : Json} (hv : (r.entries fields)[i]? = some v)
    {name : String} (hname : entryName? v = some name) :
    (UInt16.ofNat (r.fixed.length + i + 1), name) ∈ r.targets fields := by
  refine mem_targets_iff_names.2 ⟨r.fixed.length + i, toNat_branchPort h, ?_⟩
  rw [getElem?_names_branch, hv, Option.map_some, hname]

theorem getElem?_entries_strip (h : i < r.mostBranches) :
    (r.entries (r.strip fields))[i]? = (r.entries fields)[i]?.map clearEntry := by
  rw [entries_strip, clearBranches_eq, branches_eq, List.mapFirst_min, List.getElem?_mapFirst h]

/-- An entry has no transition once the names are taken out. -/
theorem get?_of_entries_strip (hkeyed : Json.KeyedFields fields) (h : i < r.mostBranches)
    {record : Fields} (hrecord : (r.entries (r.strip fields))[i]? = some (.obj record)) :
    record.get? transitionKey = none := by
  rw [getElem?_entries_strip h] at hrecord
  obtain ⟨v, hv, hclear⟩ := Option.map_eq_some_iff.1 hrecord
  have hv := keyed_entries hkeyed v (List.mem_of_getElem? hv)
  cases v with
  | obj entry =>
    obtain rfl := Json.obj.inj hclear
    exact Fields.get?_erase_self (Json.KeyedFields.nodup hv) transitionKey
  | _ => cases hclear

/-! ### Later entries -/

theorem getElem?_entries_strip_of_le (h : r.mostBranches ≤ i) :
    (r.entries (r.strip fields))[i]? = (r.entries fields)[i]? := by
  rw [entries_strip, clearBranches_eq, branches_eq, List.mapFirst_min,
    List.getElem?_mapFirst_of_le h]

theorem slot?_ne_branch (h : r.mostBranches ≤ i) (port : Port) (list : String) :
    r.slot? port ≠ some (.branch list i) := by
  intro hs
  rcases slot?_cases hs with hfixed | ⟨_, _, -, hlt, he⟩
  · exact r.branch_not_mem_fixed list i hfixed
  · cases he
    omega

/-- Of the entries of a list, the first ones have ports, and the count of ports counts just them.
Their names are behind these ports, and taking the names out leaves no transition in them. No port
stands for a later entry, and it is left as it is. A list that is short enough is covered. -/
theorem branches_covered (r : TransitionRule) {fields : Fields} (h : Json.KeyedFields fields) :
    (r.portsFor fields).toNat
        = r.fixed.length + min (r.entries fields).length r.mostBranches ∧
      (∀ i < r.mostBranches,
        (∀ v name, (r.entries fields)[i]? = some v → entryName? v = some name →
          (UInt16.ofNat (r.fixed.length + i + 1), name) ∈ r.targets fields) ∧
        ∀ record, (r.entries (r.strip fields))[i]? = some (.obj record) →
          Fields.get? record transitionKey = none) ∧
      (∀ i, r.mostBranches ≤ i →
        (∀ port list, r.slot? port ≠ some (.branch list i)) ∧
        (r.entries (r.strip fields))[i]? = (r.entries fields)[i]?) ∧
      ((r.entries fields).length ≤ r.mostBranches → r.Covers fields) := by
  refine ⟨?_, fun i hi => ⟨fun _ _ hv => mem_targets_branch hi hv, fun _ => ?_⟩, fun i hi => ?_,
    fun hle => ⟨fun v hv name hname => ?_, fun record hrecord => ?_⟩⟩
  · rw [toNat_portsFor_eq, branches_eq]
  · exact get?_of_entries_strip h hi
  · exact ⟨slot?_ne_branch hi, getElem?_entries_strip_of_le hi⟩
  · obtain ⟨i, hi⟩ := List.mem_iff_getElem?.1 hv
    have hlt := (List.getElem?_eq_some_iff.1 hi).1
    exact ⟨_, mem_targets_branch (Nat.lt_of_lt_of_le hlt hle) hi hname⟩
  · obtain ⟨i, hi⟩ := List.mem_iff_getElem?.1 hrecord
    have hlt := (List.getElem?_eq_some_iff.1 hi).1
    rw [entries_strip, length_clearBranches] at hlt
    exact get?_of_entries_strip h (Nat.lt_of_lt_of_le hlt hle) hi

/-- The number of conditions, of events and of handlers that have ports. -/
example : conditional.mostBranches = 65533 ∧ race.mostBranches = 65534 ∧
    handlers.mostBranches = 65535 := by decide

/-- Fields with a list of events, of which the second one names a state. -/
def eventFields : Fields :=
  [("events", .arr [.null, .obj [("event", .str "e"), ("transition", .str "b")]])]

theorem eventFields_covered : Json.KeyedFields eventFields ∧
    (race.portsFor eventFields).toNat = 3 ∧ (3, "b") ∈ race.targets eventFields ∧
    race.Covers eventFields := by
  have hkeyed : Json.KeyedFields eventFields := by decide
  obtain ⟨hports, hfirst, -, hcovers⟩ := branches_covered race hkeyed
  exact ⟨hkeyed, hports, (hfirst 1 (by decide)).1 _ _ rfl rfl, hcovers (by decide)⟩

/-! ### A list that is too long -/

/-- Fields with `n` conditions that name no state, and then one that does. -/
def crowdedFields (n : Nat) : Fields :=
  [("conditions", .arr (List.replicate n .null ++ [.obj [("transition", .str "b")]]))]

theorem entries_crowdedFields (n : Nat) : conditional.entries (crowdedFields n)
    = List.replicate n .null ++ [.obj [("transition", .str "b")]] := rfl

theorem names_crowdedFields (n : Nat) :
    conditional.names (crowdedFields n) = List.replicate (n + 2) none ++ [some "b"] := by
  rw [names, entries_crowdedFields, List.map_append, List.map_replicate, List.replicate_succ,
    List.replicate_succ]
  rfl

theorem keyed_crowdedFields (n : Nat) : Json.KeyedFields (crowdedFields n) := by
  refine ⟨List.not_mem_nil, Json.keyedItems_iff.2 fun v hv => ?_, trivial⟩
  rcases List.mem_append.1 hv with hv | hv
  · rw [List.eq_of_mem_replicate hv]
    trivial
  · have hentry : Json.KeyedFields [("transition", .str "b")] := by decide
    rw [List.mem_singleton.1 hv]
    exact hentry

/-- The last of 65534 conditions names a state, but no port stands for it, and its name stays when
names are taken out. -/
theorem crowdedFields_not_covered : Json.KeyedFields (crowdedFields 65533) ∧
    conditional.targets (crowdedFields 65533) = [] ∧
    (conditional.entries (conditional.strip (crowdedFields 65533)))[65533]?
      = some (.obj [("transition", .str "b")]) ∧
    ¬ conditional.Covers (crowdedFields 65533) := by
  have htargets : conditional.targets (crowdedFields 65533) = [] := by
    refine List.eq_nil_iff_forall_not_mem.2 fun ⟨port, name⟩ hmem => ?_
    obtain ⟨i, hi, hname⟩ := mem_targets_iff_names.1 hmem
    have hlt := port.toNat_lt
    rw [names_crowdedFields, List.getElem?_append_left (by rw [List.length_replicate]; omega),
      List.getElem?_replicate_of_lt (by omega)] at hname
    cases hname
  have hstays : (conditional.entries (conditional.strip (crowdedFields 65533)))[65533]?
      = (conditional.entries (crowdedFields 65533))[65533]? :=
    getElem?_entries_strip_of_le (Nat.le_refl 65533)
  rw [entries_crowdedFields, List.getElem?_append_right (by rw [List.length_replicate]),
    List.length_replicate] at hstays
  refine ⟨keyed_crowdedFields _, htargets, hstays, fun h => ?_⟩
  obtain ⟨port, hport⟩ := h.named (.obj [("transition", .str "b")])
    (List.mem_append_right _ List.mem_cons_self) "b" rfl
  rw [htargets] at hport
  cases hport

end TransitionRule

end Workflow
