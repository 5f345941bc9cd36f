import Workflow.Proofs.Except
import Workflow.Proofs.NodeType.Restored

/-!
# The names of written fields

Writing a name changes what stands behind one port (`TransitionRule.mem_targets_write`). So fields
without names that were written for the outputs of a node name, behind each port, the state that the
output leads to (`Compile.mem_targets_writeAll`), and encoding their transforms changes no name
(`TransitionRule.SameNames.ofForm`).
-/

namespace Workflow

namespace TransitionRule

open TransitionSlot

variable {r : TransitionRule} {fields fields' : Fields}

theorem portsFor_eq (r : TransitionRule) (fields : Fields) :
    r.portsFor fields = PortCount.saturate (r.names fields).length := by
  rw [portsFor, names, List.length_append, List.length_map, List.length_map]

/-- A name stands behind a port when it is the one at its position. -/
theorem mem_targets_iff_names {p : Port} {name : String} :
    (p, name) ∈ r.targets fields ↔
      ∃ i, p.toNat = i + 1 ∧ (r.names fields)[i]? = some (some name) := by
  have hp := p.toNat_lt
  rw [targets_eq_filterMap_names, portsFor_eq, PortCount.toNat_saturate]
  simp only [List.mem_filterMap, List.mem_range, Option.map_eq_some_iff, Prod.mk.injEq,
    Option.join_eq_some_iff, PortCount.greatest]
  constructor
  · rintro ⟨i, hi, _, hname, rfl, rfl⟩
    refine ⟨i, ?_, hname⟩
    rw [UInt16.toNat_ofNat', Nat.mod_eq_of_lt (by omega)]
  · rintro ⟨i, hi, hname⟩
    have hlt := (List.getElem?_eq_some_iff.1 hname).1
    exact ⟨i, by omega, name, hname, by rw [← hi, UInt16.ofNat_toNat], rfl⟩

theorem entries_congr (h : ∀ list, r.list? = some list → fields'.get? list = fields.get? list) :
    r.entries fields' = r.entries fields := by
  unfold entries
  cases hl : r.list? with
  | none => rfl
  | some list => exact itemsOf_congr (h list hl)

/-- The only fixed slot that can be written is the first one. -/
theorem names_write_fixed {i : Nat} {s : TransitionSlot} {name : String}
    (hs : r.fixed[i]? = some s) (hw : s.write fields name = some fields') :
    r.names fields' = (r.names fields).set i (some name) := by
  have hentries : r.entries fields' = r.entries fields := by
    refine entries_congr fun list hl => ?_
    cases r <;> cases hl <;> rcases i with _ | _ | i <;> cases hs <;> cases hw
    all_goals exact Fields.get?_insert_of_ne fields _ (by decide)
  rw [names, names, hentries]
  have hread : s.read fields' = some name := by
    cases hk : s.key? with
    | none =>
      cases s with
      | branch => cases r <;> rcases i with _ | _ | i <;> cases hs
      | error => cases hw
      | transition | defaultTransition | startState => cases hk
    | some key =>
      have hwritten := read_write_of_key hk fields name
      rwa [hw] at hwritten
  cases r <;> rcases i with _ | _ | i <;> cases hs
  all_goals first
    | cases hw; done
    | simp only [fixed, List.map_cons, hread]; rfl

/-- Writing a name into an entry of the list leaves the fixed slots and the other entries. -/
theorem names_write_branch {list : String} (hl : r.list? = some list) {j : Nat} {name : String}
    (hw : (branch list j).write fields name = some fields') :
    j < (r.entries fields).length ∧
      r.names fields' = (r.names fields).set (r.fixed.length + j) (some name) := by
  have hitems : r.entries fields = itemsOf fields list := by simp only [entries, hl]
  obtain ⟨entry, hentry, rfl⟩ := write_branch_eq_some hw
  have hlt : j < (itemsOf fields list).length := (List.getElem?_eq_some_iff.1 hentry).1
  have hname : entryName? (.obj (Fields.insert entry transitionKey (.str name))) = some name := by
    simp [entryName?, Json.obj?, Fields.get?_insert_self, Json.str?]
  have hfixed : r.fixed.map (·.read (changeItems
      (·.set j (.obj (Fields.insert entry transitionKey (.str name)))) fields list))
      = r.fixed.map (·.read fields) := by
    refine List.map_congr_left fun s hs => SameNames.read_congr hs fun key hk => ?_
    refine get?_changeItems_of_ne _ _ fun he => list_not_mem_fixedKeys hl ?_
    exact he ▸ List.mem_filterMap.2 ⟨s, hs, hk⟩
  refine ⟨hitems ▸ hlt, ?_⟩
  rw [names, names, hfixed, List.set_append_right _ _ (by rw [List.length_map]; omega),
    List.length_map, Nat.add_sub_cancel_left, hitems, ← hname, ← List.map_set]
  simp only [entries, hl]
  rw [itemsOf_changeItems (f := fun items => items.set j _) rfl]

/-- Writing a name puts it at the position of its slot. -/
theorem names_write {s : TransitionSlot} {i : Nat} {name : String} (hs : r.slotAt? i = some s)
    (hw : s.write fields name = some fields') :
    i < (r.names fields).length ∧ r.names fields' = (r.names fields).set i (some name) := by
  have hlength : (r.names fields).length = r.fixed.length + (r.entries fields).length := by
    rw [names, List.length_append, List.length_map, List.length_map]
  unfold slotAt? at hs
  split at hs
  next s' hs' =>
    cases hs
    have hlt := (List.getElem?_eq_some_iff.1 hs').1
    exact ⟨by omega, names_write_fixed hs' hw⟩
  next hnone =>
    obtain ⟨list, hl, rfl⟩ := Option.map_eq_some_iff.1 hs
    have hge := List.getElem?_eq_none_iff.1 hnone
    obtain ⟨hlt, hnames⟩ := names_write_branch hl hw
    rw [Nat.add_sub_cancel' hge] at hnames
    exact ⟨by omega, hnames⟩

theorem exists_slotAt_of_slot? {p : Port} {s : TransitionSlot} (h : r.slot? p = some s) :
    ∃ i, p.toNat = i + 1 ∧ r.slotAt? i = some s := by
  unfold slot? at h
  split at h
  next => cases h
  next i hp => exact ⟨i, hp, h⟩

/-- Writing a name changes what stands behind the port of its slot, and nothing else. -/
theorem mem_targets_write {p q : Port} {s : TransitionSlot} {name other : String}
    (hs : r.slot? p = some s) (hw : s.write fields name = some fields') :
    (q, other) ∈ r.targets fields' ↔
      q = p ∧ other = name ∨ q ≠ p ∧ (q, other) ∈ r.targets fields := by
  obtain ⟨i, hp, hslot⟩ := exists_slotAt_of_slot? hs
  obtain ⟨hlt, hnames⟩ := names_write hslot hw
  simp only [mem_targets_iff_names, hnames]
  by_cases hq : q = p
  · subst hq
    simp only [ne_eq, not_true, false_and, or_false, true_and]
    constructor
    · rintro ⟨j, hj, hget⟩
      obtain rfl : j = i := by omega
      rw [List.getElem?_set_self hlt] at hget
      exact (Option.some.inj (Option.some.inj hget)).symm
    · rintro rfl
      exact ⟨i, hp, List.getElem?_set_self hlt⟩
  · have hne : ∀ j, q.toNat = j + 1 → i ≠ j := by
      rintro j hj rfl
      exact hq (UInt16.toNat_inj.1 (hj.trans hp.symm))
    simp only [hq, false_and, false_or, ne_eq, not_false_eq_true, true_and]
    refine exists_congr fun j => and_congr_right fun hj => ?_
    rw [List.getElem?_set_ne (hne j hj)]

end TransitionRule

/-! ### Encoding -/

theorem Fields.get?_encodeAt_of_ne {fields fields' : Fields} {key other path : String}
    (h : fields.encodeAt key path = .ok fields') (hne : other ≠ key) :
    fields'.get? other = fields.get? other := by
  unfold encodeAt at h
  split at h
  next =>
    cases h
    rfl
  next =>
    split at h
    next v? _ =>
      cases h
      exact get?_assign_of_ne fields v? hne
    next => cases h

namespace TransformPlace

/-- Changing the records of a list changes no name when it changes none in any record. -/
theorem entryNames_eachRecord {change : Nat → Fields → Except CodecError Fields}
    (hchange : ∀ i record record', change i record = .ok record' →
      record'.get? TransitionSlot.transitionKey = record.get? TransitionSlot.transitionKey)
    {index : Nat} {items items' : List Json} (h : eachRecord change index items = .ok items') :
    items'.map TransitionSlot.entryName? = items.map TransitionSlot.entryName? := by
  induction items generalizing index items' with
  | nil =>
    cases h
    rfl
  | cons v rest ih =>
    cases v with
    | obj record =>
      rw [eachRecord] at h
      obtain ⟨record', hrecord, h⟩ := Except.bind_eq_ok_iff.1 h
      obtain ⟨rest', hrest, h⟩ := Except.bind_eq_ok_iff.1 h
      obtain rfl := Except.pure_eq_ok_iff.1 h
      have hname :
          TransitionSlot.entryName? (.obj record') = TransitionSlot.entryName? (.obj record) :=
        congrArg (·.bind Json.str?) (hchange _ _ _ hrecord)
      rw [List.map_cons, List.map_cons, ih hrest, hname]
    | _ =>
      simp only [eachRecord] at h
      obtain ⟨rest', hrest, h⟩ := Except.bind_eq_ok_iff.1 h
      obtain rfl := Except.pure_eq_ok_iff.1 h
      rw [List.map_cons, List.map_cons, ih hrest]

end TransformPlace

namespace TransitionRule.SameNames

variable {r : TransitionRule}

theorem encode {p : TransformPlace} (h : p.apart r = true) {id : String} {form fields : Fields}
    (he : p.encode id form = .ok fields) : r.SameNames fields form := by
  cases p with
  | field key =>
    exact of_place h (fun other hne => Fields.get?_encodeAt_of_ne he hne) nofun
  | nested outer key =>
    refine of_place h (fun other hne => ?_) nofun
    simp only [TransformPlace.encode, TransformPlace.apply] at he
    split at he
    next record _ =>
      obtain ⟨record', -, he⟩ := Except.bind_eq_ok_iff.1 he
      obtain rfl := Except.pure_eq_ok_iff.1 he
      exact Fields.get?_insert_of_ne form _ hne
    next =>
      obtain rfl := Except.pure_eq_ok_iff.1 he
      rfl
  | eachIn list key =>
    simp only [TransformPlace.encode, TransformPlace.apply] at he
    split at he
    next items hitems =>
      obtain ⟨items', hitems', he⟩ := Except.bind_eq_ok_iff.1 he
      obtain rfl := Except.pure_eq_ok_iff.1 he
      refine of_place h (fun other hne => Fields.get?_insert_of_ne form _ hne)
        fun list' key' hp hkey => ?_
      cases hp
      have hnames := TransformPlace.entryNames_eachRecord
        (fun i record record' hrecord => Fields.get?_encodeAt_of_ne hrecord hkey) hitems'
      simp only [TransitionSlot.itemsOf, Fields.get?_insert_self, hitems]
      exact hnames
    next =>
      obtain rfl := Except.pure_eq_ok_iff.1 he
      exact refl

/-- The fields for a form have the same names. -/
theorem ofForm {t : NodeType} (h : t.apart = true) {id : String} {form fields : Fields}
    (hf : t.form.ofForm id form = .ok fields) : t.transitions.SameNames fields form := by
  rw [FormRule.ofForm_eq] at hf
  refine Except.foldlM_induction (P := fun acc => t.transitions.SameNames acc form) ?_ refl hf
  intro mid p hp mid' hmid hencode
  exact (encode (NodeType.apart_places h p hp) hencode).trans hmid

end TransitionRule.SameNames

/-! ### Outputs -/

namespace Compile

open TransitionRule

theorem writtenBehind_eq_some_iff {T : Type} [NodeSpec T] {g : Graph} {t : T} {p : Port}
    {es : List Edge} {s : TransitionSlot} {name : String} :
    writtenBehind g t (p, es) = some (s, name) ↔
      ∃ e, es.head? = some e ∧ NodeSpec.slot? t p = some s ∧ s ≠ .error ∧
        nameOf g e.target = name := by
  cases es with
  | nil => simp [writtenBehind]
  | cons e rest =>
    simp only [writtenBehind]
    cases NodeSpec.slot? t p with
    | none => simp
    | some s' =>
      by_cases hs : s' = .error
      · simp only [hs, if_true, List.head?_cons, Option.some.injEq, reduceCtorEq, false_iff]
        rintro ⟨_, -, rfl, hne, -⟩
        exact hne rfl
      · simp only [if_neg hs, List.head?_cons, Option.some.injEq, Prod.mk.injEq]
        constructor
        · rintro ⟨rfl, rfl⟩
          exact ⟨e, rfl, rfl, hs, rfl⟩
        · rintro ⟨_, rfl, rfl, -, rfl⟩
          exact ⟨rfl, rfl⟩

/-- What is written for a node is written into the slots of its outputs. -/
theorem exists_port_of_mem_written {T : Type} [NodeSpec T] {g : Graph} {t : T}
    {outputs : List (Port × List Edge)} {w : TransitionSlot × String}
    (h : w ∈ written g t outputs) : ∃ p, NodeSpec.slot? t p = some w.1 := by
  obtain ⟨⟨p, es⟩, -, hw⟩ := List.mem_filterMap.1 h
  obtain ⟨-, -, hs, -⟩ := writtenBehind_eq_some_iff.1 hw
  exact ⟨p, hs⟩

/-- The name that is written for the output with a given port. -/
def nameBehind (g : Graph) (t : NodeType) (outputs : List (Port × List Edge)) (p : Port) :
    Option String :=
  (outputs.find? (·.1 = p)).bind fun output => (writtenBehind g t output).map Prod.snd

/-- Writing names adds no place for a name. -/
theorem length_names_writeAll {g : Graph} {t : NodeType} {outputs : List (Port × List Edge)}
    {form result : Fields} (hw : writeAll form (written g t outputs) = some result) :
    (t.transitions.names result).length = (t.transitions.names form).length := by
  induction outputs generalizing form with
  | nil =>
    cases hw
    rfl
  | cons output rest ih =>
    rw [written, List.filterMap_cons] at hw
    cases hbehind : writtenBehind g t output with
    | none =>
      rw [hbehind] at hw
      exact ih hw
    | some x =>
      rw [hbehind] at hw
      obtain ⟨mid, hmid, hw⟩ := Option.bind_eq_some_iff.1 hw
      obtain ⟨-, -, hs, -⟩ := writtenBehind_eq_some_iff.1 hbehind
      obtain ⟨i, -, hslot⟩ := exists_slotAt_of_slot? hs
      rw [ih hw, (names_write hslot hmid).2, List.length_set]

/-- Behind a port stands the name that was written for it, or else what stood there before. -/
theorem mem_targets_writeAll {g : Graph} {t : NodeType} {outputs : List (Port × List Edge)}
    (hnd : (outputs.map Prod.fst).Nodup) {form result : Fields}
    (hw : writeAll form (written g t outputs) = some result) {p : Port} {name : String} :
    (p, name) ∈ t.transitions.targets result ↔ nameBehind g t outputs p = some name ∨
      nameBehind g t outputs p = none ∧ (p, name) ∈ t.transitions.targets form := by
  induction outputs generalizing form with
  | nil =>
    cases hw
    simp [nameBehind]
  | cons output rest ih =>
    obtain ⟨q, es⟩ := output
    obtain ⟨hnot, hnd⟩ := List.nodup_cons.1 hnd
    have hrest : nameBehind g t rest q = none := by
      rw [nameBehind, List.find?_eq_none.2, Option.bind_none]
      intro other hmem he
      exact hnot (List.mem_map.2 ⟨other, hmem, of_decide_eq_true he⟩)
    have hcons : nameBehind g t ((q, es) :: rest) p =
        if q = p then (writtenBehind g t (q, es)).map Prod.snd else nameBehind g t rest p := by
      rw [nameBehind, List.find?_cons]
      by_cases hq : q = p <;> simp [hq, nameBehind]
    rw [written, List.filterMap_cons] at hw
    cases hbehind : writtenBehind g t (q, es) with
    | none =>
      rw [hbehind] at hw
      rw [ih hnd hw, hcons, hbehind]
      split
      next hq => simp [← hq, hrest]
      next => rfl
    | some x =>
      rw [hbehind] at hw
      obtain ⟨mid, hmid, hw⟩ := Option.bind_eq_some_iff.1 hw
      obtain ⟨-, -, hs, -⟩ := writtenBehind_eq_some_iff.1 hbehind
      rw [ih hnd hw, mem_targets_write hs hmid, hcons, hbehind]
      split
      next hq => simp [← hq, hrest, eq_comm]
      next hq => simp [Ne.symm hq]

end Compile

end Workflow
