import Workflow.Proofs.NodeType.Settled

/-!
# Slots as cells

The slots of a rule behave like cells that do not share memory (`TransitionRule.slots_are_cells`):
what is put into a slot is read from it, what is cleared is gone, and the other slots of the rule
hold what they held. Different ports have different slots (`slot?_injective`). A name is either
written or the fields stay (`TransitionSlot.put_cases`).

Two slots of a rule either stand in different fields, and then a change of the one does not touch the
field of the other, or they are different entries of the same list (`field?_ne_or_branch`).
-/

namespace Workflow

namespace TransitionSlot

variable {s : TransitionSlot} {fields written : Fields} {name key : String}

/-- The field that a slot stands in: a field of its own, or the list that it is an entry of. -/
def field? : TransitionSlot → Option String
  | branch list _ => some list
  | s => s.key?

/-- Fields have a place for a name unless the slot is the error output, or an entry that does not
exist or is no record. -/
def HasPlace : TransitionSlot → Fields → Prop
  | branch list index, fields =>
    ∃ items entry, fields.get? list = some (.arr items) ∧ items[index]? = some (.obj entry)
  | error, _ => False
  | transition, _ | defaultTransition, _ | startState, _ => True

theorem exists_write_iff : (∃ written, s.write fields name = some written) ↔ s.HasPlace fields := by
  cases s with
  | branch list index =>
    constructor
    · rintro ⟨written, hw⟩
      obtain ⟨items, entry, hitems, hentry, -⟩ := write_branch_eq_some_iff.1 hw
      exact ⟨items, entry, hitems, hentry⟩
    · rintro ⟨items, entry, hitems, hentry⟩
      exact ⟨_, write_branch_eq_some_iff.2 ⟨items, entry, hitems, hentry, rfl⟩⟩
  | error => exact ⟨nofun, nofun⟩
  | transition | defaultTransition | startState => exact ⟨fun _ => trivial, fun _ => ⟨_, rfl⟩⟩

/-- A name that is put into a slot is written there, or there is no place and the fields stay. -/
theorem put_cases (s : TransitionSlot) (fields : Fields) (name : String) :
    (∃ written, s.write fields name = some written ∧ s.put fields name = (written, true)) ∨
      s.write fields name = none ∧ s.put fields name = (fields, false) := by
  have hput : (∃ written, s.put fields name = (written, true)) ∨
      s.put fields name = (fields, false) := by
    cases s with
    | branch list index =>
      rw [put]
      split
      · exact .inl ⟨_, rfl⟩
      · exact .inr rfl
    | error => exact .inr rfl
    | transition | defaultTransition | startState => exact .inl ⟨_, rfl⟩
  rcases hput with ⟨written, h⟩ | h
  · exact .inl ⟨written, write_eq_some_iff.2 h, h⟩
  · exact .inr ⟨by rw [write, h], h⟩

theorem put_snd_iff : (s.put fields name).2 = true ↔ s.HasPlace fields := by
  refine Iff.trans ?_ (exists_write_iff : (∃ written, s.write fields name = some written) ↔ _)
  rcases put_cases s fields name with ⟨written, hw, hp⟩ | ⟨hw, hp⟩
  · rw [hp, hw]
    exact iff_of_true rfl ⟨written, rfl⟩
  · rw [hp, hw]
    exact iff_of_false Bool.false_ne_true fun ⟨_, h⟩ => Option.some_ne_none _ h.symm

/-! ### One slot -/

theorem itemsOf_of_get? {list : String} {items : List Json}
    (h : fields.get? list = some (.arr items)) : itemsOf fields list = items := by
  rw [itemsOf, h]
  rfl

theorem read_write (hw : s.write fields name = some written) : s.read written = some name := by
  cases s with
  | branch list index =>
    obtain ⟨items, entry, -, hentry, rfl⟩ := write_branch_eq_some_iff.1 hw
    have hlt := (List.getElem?_eq_some_iff.1 hentry).1
    rw [read, itemsOf_of_get? (Fields.get?_insert_self ..), List.getElem?_set_self hlt,
      Option.bind_some, entryName?, Json.obj?]
    simp [Fields.get?_insert_self, Json.str?]
  | error => cases hw
  | transition | defaultTransition | startState =>
    cases hw
    rw [read_of_key rfl, Fields.get?_insert_self]
    rfl

/-- Clearing a name that was written leaves nothing of it, not even a place among the keys. -/
theorem clear_write (hw : s.write fields name = some written) :
    s.clear written = s.clear fields := by
  cases s with
  | branch list index =>
    obtain ⟨items, entry, hitems, hentry, rfl⟩ := write_branch_eq_some_iff.1 hw
    have hlt := (List.getElem?_eq_some_iff.1 hentry).1
    simp only [clear, changeItems, Fields.get?_insert_self, hitems, Fields.insert_insert]
    have hnamed : clearEntry (.obj (Fields.insert entry transitionKey (.str name)))
        = clearEntry (.obj entry) := congrArg Json.obj (Fields.erase_insert_self entry _ _)
    have hmodify : (items.set index (.obj (Fields.insert entry transitionKey (.str name)))).modify
        index clearEntry = items.modify index clearEntry := by
      refine List.ext_getElem? fun i => ?_
      by_cases hi : index = i
      · subst hi
        rw [List.getElem?_modify_eq, List.getElem?_modify_eq, List.getElem?_set_self hlt, hentry]
        exact congrArg some hnamed
      · rw [List.getElem?_modify_ne _ _ hi, List.getElem?_modify_ne _ _ hi, List.getElem?_set_ne hi]
    rw [hmodify]
  | error => cases hw
  | transition | defaultTransition | startState =>
    cases hw
    exact Fields.erase_insert_self fields _ _

theorem read_clear (s : TransitionSlot) (h : Json.KeyedFields fields) :
    s.read (s.clear fields) = none := by
  cases s with
  | branch list index =>
    rw [read, clear, itemsOf_changeItems (by cases index <;> rfl), List.getElem?_modify_eq]
    cases hv : (itemsOf fields list)[index]? with
    | none => rfl
    | some v =>
      have hkeyed := Json.keyedItems_iff.1 (keyedItems_itemsOf h list) v (List.mem_of_getElem? hv)
      exact entryName?_clearEntry hkeyed
  | error => rfl
  | transition | defaultTransition | startState =>
    have hnone := Fields.get?_erase_self h.nodup
    simp [clear, read, key?, hnone]

/-! ### Two slots -/

/-- What a slot holds depends on the field that it stands in. -/
theorem read_congr {fields' : Fields}
    (h : ∀ key, s.field? = some key → fields'.get? key = fields.get? key) :
    s.read fields' = s.read fields := by
  cases s with
  | branch list index => rw [read, read, itemsOf_congr (h list rfl)]
  | error => rfl
  | transition | defaultTransition | startState => rw [read_of_key rfl, read_of_key rfl, h _ rfl]

theorem get?_write_of_ne (hw : s.write fields name = some written) (h : s.field? ≠ some key) :
    written.get? key = fields.get? key := by
  cases s with
  | branch list index =>
    obtain ⟨items, entry, -, -, rfl⟩ := write_branch_eq_some_iff.1 hw
    exact Fields.get?_insert_of_ne fields _ fun he => h (he ▸ rfl)
  | error => cases hw
  | transition | defaultTransition | startState =>
    cases hw
    exact Fields.get?_insert_of_ne fields _ fun he => h (he ▸ rfl)

theorem get?_clear_of_ne (fields : Fields) (h : s.field? ≠ some key) :
    (s.clear fields).get? key = fields.get? key := by
  cases s with
  | branch list index => exact get?_changeItems_of_ne _ fields fun he => h (he ▸ rfl)
  | error => rfl
  | transition | defaultTransition | startState =>
    exact Fields.get?_erase_of_ne fields fun he => h (he ▸ rfl)

theorem read_write_branch {list : String} {i j : Nat} (hne : i ≠ j)
    (hw : (branch list i).write fields name = some written) :
    (branch list j).read written = (branch list j).read fields := by
  obtain ⟨items, entry, hitems, -, rfl⟩ := write_branch_eq_some_iff.1 hw
  rw [read, read, itemsOf_of_get? (Fields.get?_insert_self ..), itemsOf_of_get? hitems,
    List.getElem?_set_ne hne]

theorem read_clear_branch (fields : Fields) (list : String) {i j : Nat} (hne : i ≠ j) :
    (branch list j).read ((branch list i).clear fields) = (branch list j).read fields := by
  rw [read, read, clear, itemsOf_changeItems (by cases i <;> rfl),
    List.getElem?_modify_ne clearEntry _ hne]

end TransitionSlot

namespace TransitionRule

open TransitionSlot

variable {r : TransitionRule} {p q : Port} {a b : TransitionSlot}
variable {fields written : Fields} {name : String}

theorem slotAt?_injective {i j : Nat} (ha : r.slotAt? i = some a) (hb : r.slotAt? j = some a) :
    i = j := by
  have hnodup : r.fixed.Nodup := by cases r <;> decide
  unfold slotAt? at ha hb
  split at ha <;> split at hb
  next _ s hs _ s' hs' =>
    obtain rfl := Option.some.inj ha
    obtain rfl := Option.some.inj hb
    exact (List.getElem?_inj (List.getElem?_eq_some_iff.1 hs).1 hnodup).1 (hs.trans hs'.symm)
  next _ s hs _ hnone =>
    obtain ⟨list, -, rfl⟩ := Option.map_eq_some_iff.1 hb
    obtain rfl := Option.some.inj ha
    exact absurd (List.mem_of_getElem? hs) (r.branch_not_mem_fixed _ _)
  next _ hnone _ s hs =>
    obtain ⟨list, -, rfl⟩ := Option.map_eq_some_iff.1 ha
    obtain rfl := Option.some.inj hb
    exact absurd (List.mem_of_getElem? hs) (r.branch_not_mem_fixed _ _)
  next _ hi _ hj =>
    have hi := List.getElem?_eq_none_iff.1 hi
    have hj := List.getElem?_eq_none_iff.1 hj
    obtain ⟨list, -, rfl⟩ := Option.map_eq_some_iff.1 ha
    obtain ⟨list', -, hb⟩ := Option.map_eq_some_iff.1 hb
    have hindex := (branch.inj hb).2
    omega

/-- Different ports have different slots. -/
theorem slot?_injective (ha : r.slot? p = some a) (hb : r.slot? q = some a) : p = q := by
  obtain ⟨i, hp, hi⟩ := exists_slotAt_of_slot? ha
  obtain ⟨j, hq, hj⟩ := exists_slotAt_of_slot? hb
  obtain rfl := slotAt?_injective hi hj
  exact UInt16.toNat_inj.1 (hp.trans hq.symm)

/-- Two slots of a rule stand in different fields, or they are entries of the same list. -/
theorem field?_ne_or_branch (ha : r.slot? p = some a) (hb : r.slot? q = some b) (hne : a ≠ b) :
    (∀ key, b.field? = some key → a.field? ≠ some key) ∨
      ∃ list i j, a = .branch list i ∧ b = .branch list j ∧ i ≠ j := by
  have hfixed : ∀ {s list}, s ∈ r.fixed → r.list? = some list → s.field? ≠ some list := by
    intro s list hs hl
    cases r <;> cases hl <;> simp only [fixed, List.mem_cons, List.not_mem_nil, or_false] at hs
    · rcases hs with rfl | rfl <;> decide
    · subst hs
      decide
  -- No rule has two fixed slots with a key of their own.
  have hkeys : a ∈ r.fixed → b ∈ r.fixed → ∀ key, b.field? = some key → a.field? ≠ some key := by
    intro ha hb key hb' ha'
    cases r <;> simp only [fixed, List.mem_cons, List.not_mem_nil, or_false] at ha hb
    case race => exact hne (ha.trans hb.symm)
    case entry => exact hne (ha.trans hb.symm)
    all_goals rcases ha with rfl | rfl <;> rcases hb with rfl | rfl
    all_goals first | exact hne rfl | simp [field?, key?] at ha' hb'
  rcases slot?_cases ha with ha | ⟨list, i, hl, -, rfl⟩ <;>
    rcases slot?_cases hb with hb | ⟨list', j, hl', -, rfl⟩
  · exact .inl (hkeys ha hb)
  · refine .inl fun key hb' => ?_
    obtain rfl := Option.some.inj hb'
    exact hfixed ha hl'
  · refine .inl fun key hb' ha' => ?_
    obtain rfl := Option.some.inj ha'
    exact hfixed hb hl hb'
  · obtain rfl := Option.some.inj (hl.symm.trans hl')
    exact .inr ⟨list, i, j, rfl, rfl, fun h => hne (h ▸ rfl)⟩

/-- The other slots hold what they held before the name was written. -/
theorem read_write_of_ne (hw : a.write fields name = some written) (ha : r.slot? p = some a)
    (hb : r.slot? q = some b) (hne : a ≠ b) : b.read written = b.read fields := by
  rcases field?_ne_or_branch ha hb hne with hfield | ⟨list, i, j, rfl, rfl, hij⟩
  · exact read_congr fun key hkey => get?_write_of_ne hw (hfield key hkey)
  · exact read_write_branch hij hw

theorem read_clear_of_ne (fields : Fields) (ha : r.slot? p = some a) (hb : r.slot? q = some b)
    (hne : a ≠ b) : b.read (a.clear fields) = b.read fields := by
  rcases field?_ne_or_branch ha hb hne with hfield | ⟨list, i, j, rfl, rfl, hij⟩
  · exact read_congr fun key hkey => get?_clear_of_ne fields (hfield key hkey)
  · exact read_clear_branch fields list hij

/-- The slots of a rule are cells: each port has its own, the error output has the one without a
place, and a slot that a name is put into or that is cleared holds the name or nothing while the
others stay. A name that has no place changes nothing, and clearing a slot leaves no trace of what
was put into it. -/
theorem slots_are_cells (r : TransitionRule) :
    (∀ p q a, r.slot? p = some a → r.slot? q = some a → p = q) ∧
      (∀ p, r.errorPort? = some p ↔ r.slot? p = some .error) ∧
      ∀ p a, r.slot? p = some a → ∀ fields, Json.KeyedFields fields → ∀ name,
        ((a.put fields name).2 = true ↔ a.HasPlace fields) ∧
        (∀ written, a.write fields name = some written ↔ a.put fields name = (written, true)) ∧
        (¬a.HasPlace fields → (a.put fields name).1 = fields) ∧
        (a.HasPlace fields → a.read (a.put fields name).1 = some name) ∧
        a.clear (a.put fields name).1 = a.clear fields ∧
        a.read (a.clear fields) = none ∧
        ∀ q b, r.slot? q = some b → a ≠ b →
          b.read (a.put fields name).1 = b.read fields ∧
          b.read (a.clear fields) = b.read fields := by
  refine ⟨fun p q a => slot?_injective, fun p => slot?_eq_some_error_iff.symm,
    fun p a ha fields hkeyed name => ?_⟩
  have hclear : ∀ q b, r.slot? q = some b → a ≠ b → b.read (a.clear fields) = b.read fields :=
    fun q b hb hne => read_clear_of_ne fields ha hb hne
  refine ⟨put_snd_iff, fun written => write_eq_some_iff, ?_⟩
  rcases put_cases a fields name with ⟨written, hw, hp⟩ | ⟨hw, hp⟩
  · rw [hp]
    have hplace : a.HasPlace fields := exists_write_iff.1 ⟨written, hw⟩
    exact ⟨fun h => absurd hplace h, fun _ => read_write hw, clear_write hw, read_clear a hkeyed,
      fun q b hb hne => ⟨read_write_of_ne hw ha hb hne, hclear q b hb hne⟩⟩
  · rw [hp]
    have hnone : ¬a.HasPlace fields := fun h => by
      obtain ⟨written, hwritten⟩ := exists_write_iff.2 h
      cases hw.symm.trans hwritten
    exact ⟨fun _ => rfl, fun h => absurd h hnone, rfl, read_clear a hkeyed,
      fun q b hb hne => ⟨rfl, hclear q b hb hne⟩⟩

/-- Fields with an entry that has a name, one that has none, and an item that is no record. -/
def cellFields : Fields :=
  [("conditions", .arr [.obj [("transition", .str "a"), ("when", .str "x")], .obj [], .null]),
    ("defaultTransition", .str "c")]

/-- A name is put into the second condition and cleared again beside that of the first; the third
item is no record and has no place. -/
theorem cellFields_are_cells : Json.KeyedFields cellFields ∧
    conditional.slot? 3 = some (.branch "conditions" 0) ∧
    conditional.slot? 4 = some (.branch "conditions" 1) ∧
    ((branch "conditions" 1).put cellFields "b").2 = true ∧
    (branch "conditions" 1).read ((branch "conditions" 1).put cellFields "b").1 = some "b" ∧
    (branch "conditions" 0).read ((branch "conditions" 1).put cellFields "b").1
      = (branch "conditions" 0).read cellFields ∧
    (branch "conditions" 1).clear ((branch "conditions" 1).put cellFields "b").1
      = (branch "conditions" 1).clear cellFields ∧
    conditional.slot? 5 = some (.branch "conditions" 2) ∧
    ((branch "conditions" 2).put cellFields "b").1 = cellFields := by
  have hkeyed : Json.KeyedFields cellFields := by decide
  have hfirst : conditional.slot? 3 = some (.branch "conditions" 0) := by decide
  have hsecond : conditional.slot? 4 = some (.branch "conditions" 1) := by decide
  have hthird : conditional.slot? 5 = some (.branch "conditions" 2) := by decide
  obtain ⟨-, -, hcells⟩ := slots_are_cells conditional
  obtain ⟨hplace, -, -, hread, hclear, -, hother⟩ := hcells 4 _ hsecond cellFields hkeyed "b"
  obtain ⟨-, -, hstays, -⟩ := hcells 5 _ hthird cellFields hkeyed "b"
  have hput : (branch "conditions" 1).HasPlace cellFields := ⟨_, _, rfl, rfl⟩
  have hnone : ¬(branch "conditions" 2).HasPlace cellFields := by
    rintro ⟨items, entry, hitems, hentry⟩
    cases hitems
    cases hentry
  exact ⟨hkeyed, hfirst, hsecond, hplace.2 hput, hread hput, (hother 3 _ hfirst (by decide)).1,
    hclear, hthird, hstays hnone⟩

end TransitionRule

end Workflow
