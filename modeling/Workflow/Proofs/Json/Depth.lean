import Workflow.Proofs.Document.WellFormed

/-!
# How deep the values of a text are nested

A reader goes into at most as many containers of a text as it is allowed to: what stands deeper is a
leaf of the tree that the text is turned into (`Raw.depth_ofText`). A value is no deeper than the tree
it was made from (`Raw.depth_toJson?`), and the parts of a record or of a list are less deep than the
whole (`Part.fields_induction`, `Part.list_eq_ok`). So what a reader takes from a text is not too deep
to be read again when it is written where it stood.
-/

namespace Workflow

/-! ### Depth of values -/

namespace Json

theorem depthItems_le_iff {items : List Json} {n : Nat} :
    depthItems items ≤ n ↔ ∀ v ∈ items, v.depth ≤ n := by
  induction items with
  | nil => simp [depthItems]
  | cons v rest ih => rw [depthItems, Nat.max_le, ih, List.forall_mem_cons]

theorem depthFields_le_iff {fields : Fields} {n : Nat} :
    depthFields fields ≤ n ↔ ∀ e ∈ fields, e.2.depth ≤ n := by
  induction fields with
  | nil => simp [depthFields]
  | cons e rest ih => rw [depthFields, Nat.max_le, ih, List.forall_mem_cons]

theorem depth_arr_le_iff {items : List Json} {n : Nat} :
    (arr items).depth ≤ n + 1 ↔ ∀ v ∈ items, v.depth ≤ n := by
  rw [depth, Nat.add_comm, Nat.add_le_add_iff_right, depthItems_le_iff]

theorem depth_obj_le_iff {fields : Fields} {n : Nat} :
    (obj fields).depth ≤ n + 1 ↔ ∀ e ∈ fields, e.2.depth ≤ n := by
  rw [depth, Nat.add_comm, Nat.add_le_add_iff_right, depthFields_le_iff]

end Json

theorem Fields.mem_of_mem_insert {fields : Fields} {key : String} {v : Json} {e : String × Json}
    (h : e ∈ fields.insert key v) : e = (key, v) ∨ e ∈ fields := by
  induction fields with
  | nil => exact .inl (List.mem_singleton.1 h)
  | cons f rest ih =>
    rw [insert] at h
    split at h
    next hk =>
      rcases List.mem_cons.1 h with rfl | h
      · exact .inl (Prod.ext hk rfl)
      · exact .inr (List.mem_cons_of_mem _ h)
    next =>
      rcases List.mem_cons.1 h with rfl | h
      · exact .inr List.mem_cons_self
      · exact (ih h).imp_right (List.mem_cons_of_mem _)

namespace Json.Raw

/-! ### Depth of trees -/

mutual

/-- The nesting depth of a tree; a part that cannot be read counts as a scalar. -/
def depth : Raw → Nat
  | .arr items _ => 1 + depthItems items
  | .obj fields _ => 1 + depthFields fields
  | _ => 0

/-- The depth of the deepest item. -/
def depthItems : List Raw → Nat
  | [] => 0
  | r :: rest => max r.depth (depthItems rest)

/-- The depth of the deepest field. -/
def depthFields : List (String × Raw) → Nat
  | [] => 0
  | (_, r) :: rest => max r.depth (depthFields rest)

end

theorem depth_le_depthItems {r : Raw} {items : List Raw} (h : r ∈ items) :
    r.depth ≤ depthItems items := by
  induction items with
  | nil => cases h
  | cons s rest ih =>
    rw [depthItems]
    rcases List.mem_cons.1 h with rfl | h
    · exact Nat.le_max_left _ _
    · exact Nat.le_trans (ih h) (Nat.le_max_right _ _)

theorem depth_le_depthFields {e : String × Raw} {fields : List (String × Raw)} (h : e ∈ fields) :
    e.2.depth ≤ depthFields fields := by
  induction fields with
  | nil => cases h
  | cons f rest ih =>
    rw [depthFields]
    rcases List.mem_cons.1 h with rfl | h
    · exact Nat.le_max_left _ _
    · exact Nat.le_trans (ih h) (Nat.le_max_right _ _)

mutual

/-- A value is no deeper than the tree that spells it. -/
theorem depth_toJson? : (r : Raw) → {v : Json} → r.toJson? = some v → v.depth ≤ r.depth
  | .null, _, h | .bool _, _, h | .num _, _, h | .str _, _, h => by
    obtain rfl := Option.some.inj h
    exact Nat.le_refl 0
  | .arr items .closed, _, h => by
    obtain ⟨vs, hvs, rfl⟩ := Option.map_eq_some_iff.1 h
    exact Nat.add_le_add_left (depthItems_le_iff.2 (depth_toItems? items hvs)) 1
  | .obj fields .closed, _, h => by
    obtain ⟨fs, hfs, rfl⟩ := Option.map_eq_some_iff.1 h
    exact Nat.add_le_add_left (depthFields_le_iff.2
      (depth_toFields? [] fields nofun (Nat.le_refl _) hfs)) 1

theorem depth_toItems? : (items : List Raw) → {vs : List Json} → toItems? items = some vs →
    ∀ v ∈ vs, v.depth ≤ depthItems items
  | [], _, h => by
    obtain rfl := Option.some.inj h
    exact nofun
  | r :: rest, _, h => by
    obtain ⟨v, hv, h⟩ := Option.bind_eq_some_iff.1 h
    obtain ⟨vs, hvs, h⟩ := Option.bind_eq_some_iff.1 h
    obtain rfl := Option.some.inj h
    refine List.forall_mem_cons.2 ⟨?_, fun w hw => ?_⟩
    · exact Nat.le_trans (depth_toJson? r hv) (Nat.le_max_left _ _)
    · exact Nat.le_trans (depth_toItems? rest hvs w hw) (Nat.le_max_right _ _)

theorem depth_toFields? : (acc : Fields) → (fields : List (String × Raw)) → {fs : Fields} →
    {n : Nat} → (∀ e ∈ acc, e.2.depth ≤ n) → depthFields fields ≤ n →
    toFields? acc fields = some fs → ∀ e ∈ fs, e.2.depth ≤ n
  | _, [], _, _, hacc, _, h => Option.some.inj h ▸ hacc
  | acc, (k, r) :: rest, _, n, hacc, hfields, h => by
    obtain ⟨hr, hrest⟩ := Nat.max_le.1 hfields
    obtain ⟨v, hv, h⟩ := Option.bind_eq_some_iff.1 h
    refine depth_toFields? _ rest (fun e he => ?_) hrest h
    rcases Fields.mem_of_mem_insert he with rfl | he
    · exact Nat.le_trans (depth_toJson? r hv) hr
    · exact hacc e he

end

/-! ### Depth of a text -/

theorem depth_scalar (c : Char) (text : List Char) : (scalar c text).1.depth = 0 := by
  have hword : ∀ (spelling : List Char) (value : Raw) (text : List Char), value.depth = 0 →
      (word spelling value text).1.depth = 0 := by
    intro spelling value text h
    unfold word
    split
    · exact h
    · rfl
  unfold scalar
  split
  · exact hword _ _ _ rfl
  · exact hword _ _ _ rfl
  · exact hword _ _ _ rfl
  · split <;> rfl
  · split <;> rfl

/-- A container fits into what is left of the limit when its parts fit into what is left inside. -/
theorem depth_nested {limit depth : Nat} {r : Raw} (h : r.depth ≤ 1 + (limit - (depth + 1))) :
    (nested limit depth r).depth ≤ limit - depth := by
  unfold nested
  split
  · omega
  · exact Nat.zero_le _

mutual

theorem depth_parseValue (limit : Nat) : (fuel depth : Nat) → (text : List Char) →
    (parseValue limit fuel depth text).1.depth ≤ limit - depth
  | 0, _, _ => by
    rw [parseValue]
    exact Nat.zero_le _
  | fuel + 1, depth, text => by
    rw [parseValue]
    split
    · exact Nat.zero_le _
    · split
      · exact depth_nested (Nat.le_add_right 1 _)
      next rest _ =>
        exact depth_nested (Nat.add_le_add_left (depth_parseItems limit fuel (depth + 1) _) 1)
    · split
      · exact depth_nested (Nat.le_add_right 1 _)
      next rest _ =>
        exact depth_nested (Nat.add_le_add_left (depth_parseFields limit fuel (depth + 1) _) 1)
    · rw [depth_scalar]
      exact Nat.zero_le _

theorem depth_parseItems (limit : Nat) : (fuel depth : Nat) → (text : List Char) →
    depthItems (parseItems limit fuel depth text).1 ≤ limit - depth
  | 0, _, _ => by
    rw [parseItems]
    exact Nat.zero_le _
  | fuel + 1, depth, text => by
    have hvalue := depth_parseValue limit fuel depth text
    rw [parseItems]
    split
    next r heq =>
      rw [heq] at hvalue
      exact Nat.max_le.2 ⟨hvalue, Nat.zero_le _⟩
    next r rest heq =>
      rw [heq] at hvalue
      split
      · exact Nat.max_le.2 ⟨hvalue, Nat.zero_le _⟩
      · exact Nat.max_le.2 ⟨hvalue, depth_parseItems limit fuel depth _⟩
      · exact Nat.max_le.2 ⟨hvalue, Nat.zero_le _⟩

theorem depth_parseFields (limit : Nat) : (fuel depth : Nat) → (text : List Char) →
    depthFields (parseFields limit fuel depth text).1 ≤ limit - depth
  | 0, _, _ => by
    rw [parseFields]
    exact Nat.zero_le _
  | fuel + 1, depth, text => by
    rw [parseFields]
    split
    · split
      · exact depth_parseField limit fuel depth _ _
      · exact Nat.zero_le _
      · exact Nat.zero_le _
    · split <;> exact Nat.zero_le _

theorem depth_parseField (limit : Nat) : (fuel depth : Nat) → (key : String) →
    (text : List Char) → depthFields (parseField limit fuel depth key text).1 ≤ limit - depth
  | 0, _, _, _ => by
    rw [parseField]
    exact Nat.zero_le _
  | fuel + 1, depth, key, text => by
    rw [parseField]
    split
    next rest _ =>
      have hvalue := depth_parseValue limit fuel depth rest
      split
      next r heq =>
        rw [heq] at hvalue
        exact Nat.max_le.2 ⟨hvalue, Nat.zero_le _⟩
      next r rest heq =>
        rw [heq] at hvalue
        split
        · exact Nat.max_le.2 ⟨hvalue, Nat.zero_le _⟩
        · exact Nat.max_le.2 ⟨hvalue, depth_parseFields limit fuel depth _⟩
        · exact Nat.max_le.2 ⟨hvalue, Nat.zero_le _⟩
    · exact Nat.zero_le _

end

/-- The tree of a text is nested as deep as the limit at most. -/
theorem depth_ofText (limit : Nat) (text : String) : (ofText limit text).1.depth ≤ limit := by
  have hparse := depth_parseValue limit (2 * text.toList.length + 2) 0 text.toList
  unfold ofText
  dsimp only
  split <;> rename_i heq <;> rw [heq] at hparse <;> exact hparse

end Json.Raw

/-! ### Depth of what is read -/

namespace Json.Part

variable {α : Type}

theorem depth_toJson {p : Part} {v : Json} (h : p.toJson = .ok v) : v.depth ≤ p.raw.depth := by
  unfold toJson at h
  split at h
  next w hw =>
    obtain rfl := Except.pure_eq_ok_iff.1 h
    exact Raw.depth_toJson? _ hw
  next => exact absurd h Except.throw_ne_ok

/-- A part that is present is read itself. -/
theorem optional_eq_ok {read : Part → Except Complaint α} {p : Part} {v : α}
    (h : Record.optional read p = .ok (some v)) : read p = .ok v := by
  obtain ⟨present, hpresent, h⟩ := Except.bind_eq_ok_iff.1 h
  obtain rfl := Except.pure_eq_ok_iff.1 hpresent
  split at h
  next q hq =>
    obtain ⟨w, hw, hwv⟩ := Except.map_eq_ok_iff.1 h
    obtain rfl := Option.some.inj hwv
    split at hq
    · cases hq
    · exact Option.some.inj hq ▸ hw
  next => cases Except.pure_eq_ok_iff.1 h

/-- The fields of a record are one level less deep than the record, so what each step keeps for parts
of this depth holds at the end. -/
theorem fields_induction {P : Nat → α → Prop} {expected : String}
    {step : α → String → Part → Except Complaint α} {empty v : α} {p : Part}
    (h : Record.fields expected step empty p = .ok v) (hempty : ∀ n, P n empty)
    (hstep : ∀ n acc key q acc', q.raw.depth ≤ n → P n acc → step acc key q = .ok acc' →
      P n acc') : ∃ n, p.raw.depth = n + 1 ∧ P n v := by
  obtain ⟨entries, hentries, h⟩ := Except.bind_eq_ok_iff.1 h
  obtain ⟨acc, hacc, h⟩ := Except.bind_eq_ok_iff.1 h
  have hv : acc = v := by
    split at h
    · exact absurd h Except.throw_ne_ok
    · exact Except.pure_eq_ok_iff.1 h
  have hentries : p.entriesAs expected = .ok entries := hentries
  unfold entriesAs at hentries
  split at hentries
  next fields ending hraw =>
    obtain rfl := Except.pure_eq_ok_iff.1 hentries
    refine ⟨Raw.depthFields fields, by rw [hraw, Raw.depth, Nat.add_comm], ?_⟩
    refine hv ▸ Except.foldlM_induction ?_ (hempty _) hacc
    intro acc e he acc' hP hs
    obtain ⟨f, hf, rfl⟩ := List.mem_map.1 he
    exact hstep _ acc f.1 _ acc' (Raw.depth_le_depthFields hf) hP hs
  next => exact absurd hentries Except.throw_ne_ok

/-- The items of a list are one level less deep than the list. -/
theorem list_eq_ok {read : Part → Except Complaint α} {p : Part} {vs : List α}
    (h : Record.list read p = .ok vs) :
    ∃ n, p.raw.depth = n + 1 ∧ ∀ v ∈ vs, ∃ q : Part, q.raw.depth ≤ n ∧ read q = .ok v := by
  obtain ⟨items, hitems, h⟩ := Except.bind_eq_ok_iff.1 h
  obtain ⟨values, hvalues, h⟩ := Except.bind_eq_ok_iff.1 h
  have hv : values = vs := by
    split at h
    · exact absurd h Except.throw_ne_ok
    · exact Except.pure_eq_ok_iff.1 h
  have hitems : p.itemsOf = .ok items := hitems
  unfold itemsOf at hitems
  split at hitems
  next raws ending hraw =>
    obtain rfl := Except.pure_eq_ok_iff.1 hitems
    refine ⟨Raw.depthItems raws, by rw [hraw, Raw.depth, Nat.add_comm], fun v hmem => ?_⟩
    obtain ⟨q, hq, hread⟩ := (Except.mapM_eq_ok_iff.1 hvalues).exists_of_mem_right (hv ▸ hmem)
    obtain ⟨r, hr, rfl⟩ := List.mem_map.1 hq
    exact ⟨_, Raw.depth_le_depthItems hr, hread⟩
  next => exact absurd hitems Except.throw_ne_ok

/-- A list is written as deep as it was read when its items are. -/
theorem depth_list {read : Part → Except Complaint α} {write : α → Json}
    (hitem : ∀ q v, read q = .ok v → (write v).depth ≤ q.raw.depth) {p : Part} {vs : List α}
    (h : Record.list read p = .ok vs) : (arr (vs.map write)).depth ≤ p.raw.depth := by
  obtain ⟨n, hn, hvs⟩ := list_eq_ok h
  rw [hn, depth_arr_le_iff, List.forall_mem_map]
  intro v hv
  obtain ⟨q, hq, hread⟩ := hvs v hv
  exact Nat.le_trans (hitem q v hread) hq

/-- What is read as a list of plain data repeats no key and is no deeper than what it is read from. -/
theorem list_json_eq_ok {p : Part} {vs : List Json} (h : Record.list Source.json p = .ok vs) :
    KeyedItems vs ∧ (arr vs).depth ≤ p.raw.depth := by
  obtain ⟨n, hn, hvs⟩ := list_eq_ok h
  refine ⟨keyedItems_iff.2 fun v hv => ?_, ?_⟩
  · obtain ⟨q, -, hread⟩ := hvs v hv
    exact toJson_keyed hread
  · rw [hn, depth_arr_le_iff]
    intro v hv
    obtain ⟨q, hq, hread⟩ := hvs v hv
    exact Nat.le_trans (depth_toJson hread) hq

end Json.Part

/-- What is read from a text is read from a part that is not too deep. -/
theorem Json.readText_eq_ok {α : Type} {read : Json.Part → Except Complaint α} {text : String}
    {v : α} (h : Json.readText read text = .ok v) :
    ∃ p : Json.Part, p.raw.depth ≤ Json.depthLimit ∧ read p = .ok v := by
  have hdepth := Json.Raw.depth_ofText Json.depthLimit text
  unfold Json.readText at h
  dsimp only at h
  split at h
  next w hw =>
    split at h
    · exact ⟨_, hdepth, hw.trans h⟩
    · cases h
  next => cases h

namespace Held

/-- The values that are kept aside are at most that deep. -/
def DepthLe (n : Nat) (held : Held) : Prop := ∀ e ∈ held, ∀ v, e.2 = .ok v → v.depth ≤ n

theorem DepthLe.add {n : Nat} {held held' : Held} {key : String} {q : Json.Part}
    (h : held.DepthLe n) (hq : q.raw.depth ≤ n) (hadd : held.add key q = .ok held') :
    held'.DepthLe n := by
  obtain ⟨x, hx, hadd⟩ := Except.bind_eq_ok_iff.1 hadd
  obtain rfl := Except.pure_eq_ok_iff.1 hadd
  intro e he v hv
  rcases List.mem_append.1 he with he | he
  · exact h e he v hv
  · obtain rfl := List.mem_singleton.1 he
    obtain ⟨w, hw, hwx⟩ := Except.map_eq_ok_iff.1 hx
    obtain rfl := Except.ok.inj (hwx.trans hv)
    exact Nat.le_trans (Json.Part.depth_toJson hw) hq

theorem DepthLe.settle {n : Nat} {held : Held} {p : Json.Part} {fields : Fields}
    (h : held.DepthLe n) (hs : held.settle p = .ok fields) : ∀ e ∈ fields, e.2.depth ≤ n := by
  refine Except.foldlM_induction (P := fun fields : Fields => ∀ e ∈ fields, e.2.depth ≤ n)
    ?_ (fun _ he => absurd he List.not_mem_nil) hs
  intro acc e he acc' hacc hstep
  split at hstep
  next v hv =>
    obtain rfl := Except.pure_eq_ok_iff.1 hstep
    intro f hf
    rcases Fields.mem_of_mem_insert hf with rfl | hf
    · exact h e he v hv
    · exact hacc f hf
  next => exact absurd hstep Except.throw_ne_ok

end Held

end Workflow
