import Workflow.Proofs.NodeType.Settled

/-!
# Other names in the same places

`TransitionRule.mapNames` puts other names into the places of names that hold one. Writing a name and
changing it afterwards is the same as writing the changed one (`TransitionRule.mapNames_write`), for
a whole list of names as well (`NodeType.writeAll_map`). The transforms are encoded beside the names,
whatever these are (`NodeType.ofForm_mapNames`).
-/

namespace Workflow

/-! ### Other values under the same keys -/

namespace Fields

/-- The record with some values changed, each under a key of its own. -/
def mapValues (fs : List (String × (Json → Json))) (fields : Fields) : Fields :=
  fields.alterAll (fs.map fun c => (c.1, fun v => some (c.2 v)))

variable {fields : Fields} {key : String} {f : Json → Json} {fs : List (String × (Json → Json))}

theorem map_fst_changes (fs : List (String × (Json → Json))) :
    (fs.map fun c => (c.1, fun v => some (c.2 v))).map Prod.fst = fs.map Prod.fst := by
  rw [List.map_map]
  rfl

theorem mapValues_cons (c : String × (Json → Json)) (fs : List (String × (Json → Json)))
    (fields : Fields) : fields.mapValues (c :: fs) =
      (fields.alter (fun v => some (c.2 v)) c.1).mapValues fs := rfl

theorem mapValues_insert_of_mem (hkeys : (fs.map Prod.fst).Nodup) (hmem : (key, f) ∈ fs)
    (fields : Fields) (w : Json) :
    (fields.insert key w).mapValues fs = (fields.mapValues fs).insert key (f w) := by
  induction fs generalizing fields with
  | nil => cases hmem
  | cons c rest ih =>
    obtain ⟨hnot, hkeys⟩ := List.nodup_cons.1 hkeys
    rw [mapValues_cons, mapValues_cons]
    rcases List.mem_cons.1 hmem with rfl | hmem
    · rw [alter_some_insert_self]
      exact alterAll_insert_of_not_mem (by rwa [map_fst_changes]) _ _
    · have hne : c.1 ≠ key := fun he => hnot (he ▸ List.mem_map_of_mem hmem)
      rw [alter_insert_of_ne hne, ih hkeys hmem]

theorem get?_mapValues_of_not_mem (h : key ∉ fs.map Prod.fst) (fields : Fields) :
    (fields.mapValues fs).get? key = fields.get? key :=
  get?_alterAll_of_not_mem (by rwa [map_fst_changes])

theorem get?_mapValues_of_mem (hkeys : (fs.map Prod.fst).Nodup) (hmem : (key, f) ∈ fs)
    (fields : Fields) : (fields.mapValues fs).get? key = (fields.get? key).map f := by
  induction fs generalizing fields with
  | nil => cases hmem
  | cons c rest ih =>
    obtain ⟨hnot, hkeys⟩ := List.nodup_cons.1 hkeys
    rw [mapValues_cons]
    rcases List.mem_cons.1 hmem with rfl | hmem
    · rw [get?_mapValues_of_not_mem hnot, get?_alter_some]
    · have hne : key ≠ c.1 := fun he => hnot (he ▸ List.mem_map_of_mem hmem)
      rw [ih hkeys hmem, get?_alter_of_ne _ hne]

theorem mapValues_eq_self (h : ∀ c ∈ fs, ∀ v, fields.get? c.1 = some v → c.2 v = v) :
    fields.mapValues fs = fields := by
  refine alterAll_of_fixed fun d hd v hv => ?_
  obtain ⟨c, hc, rfl⟩ := List.mem_map.1 hd
  exact congrArg some (h c hc v hv)

/-! ### Steps that may fail -/

section

variable {ε : Type} {g : Json → Except ε (Option Json)} {result : Fields}

/-- A step under one key does not see a change under another key. -/
theorem alterM_alter_of_ne {other : String} (h : fields.alterM g key = .ok result)
    (hne : key ≠ other) (φ : Json → Option Json) :
    (fields.alter φ other).alterM g key = .ok (result.alter φ other) := by
  unfold alterM at h ⊢
  rw [get?_alter_of_ne φ hne]
  cases hv : fields.get? key with
  | none =>
    rw [hv] at h
    obtain rfl := Except.ok.inj h
    rfl
  | some v =>
    rw [hv] at h
    obtain ⟨v?, hv?, rfl⟩ := Except.map_eq_ok_iff.1 h
    refine Except.map_eq_ok_iff.2 ⟨v?, hv?, ?_⟩
    have hv' : (fields.alter φ other).get? key = some v := by rw [get?_alter_of_ne φ hne, hv]
    have hassign {l : Fields} (hl : l.get? key = some v) :
        l.assign key v? = l.alter (fun _ => v?) key := by rw [alter_eq_assign hl]
    rw [hassign hv', hassign hv, alter_comm hne]

/-- A step commutes with a change under its key when it does so for every value that it takes. -/
theorem alterM_alter_self (h : fields.alterM g key = .ok result)
    (hg : ∀ v v?, g v = .ok v? → ∃ w, v? = some w ∧ g (f v) = .ok (some (f w))) :
    (fields.alter (fun v => some (f v)) key).alterM g key
      = .ok (result.alter (fun v => some (f v)) key) := by
  unfold alterM at h ⊢
  rw [get?_alter_some]
  cases hv : fields.get? key with
  | none =>
    rw [hv] at h
    obtain rfl := Except.ok.inj h
    rfl
  | some v =>
    rw [hv] at h
    obtain ⟨_, hv?, rfl⟩ := Except.map_eq_ok_iff.1 h
    obtain ⟨w, rfl, hfw⟩ := hg v _ hv?
    refine Except.map_eq_ok_iff.2 ⟨some (f w), hfw, ?_⟩
    rw [alter_eq_assign hv]
    exact (insert_insert fields key (f v) (f w)).trans
      ((alter_some_insert_self f fields key w).trans
        (by rw [alter_eq_assign hv]; exact insert_insert fields key (f v) (f w))).symm

/-- A step commutes with changes under other keys and with those under its own that it does not
see. -/
theorem alterM_mapValues (h : fields.alterM g key = .ok result)
    (hg : ∀ c ∈ fs, key ≠ c.1 ∨ c.1 = key ∧
      ∀ v v?, g v = .ok v? → ∃ w, v? = some w ∧ g (c.2 v) = .ok (some (c.2 w))) :
    (fields.mapValues fs).alterM g key = .ok (result.mapValues fs) := by
  induction fs generalizing fields result with
  | nil => exact h
  | cons c rest ih =>
    refine ih ?_ fun c hc => hg c (List.mem_cons_of_mem _ hc)
    rcases hg c List.mem_cons_self with hne | ⟨rfl, hself⟩
    · exact alterM_alter_of_ne h hne _
    · exact alterM_alter_self h hself

theorem alterM_congr {g' : Json → Except ε (Option Json)} (h : fields.alterM g key = .ok result)
    (hg : ∀ v v?, g v = .ok v? → g' v = .ok v?) : fields.alterM g' key = .ok result := by
  unfold alterM at h ⊢
  cases hv : fields.get? key with
  | none =>
    rw [hv] at h
    exact h
  | some v =>
    rw [hv] at h
    obtain ⟨v?, hv?, hresult⟩ := Except.map_eq_ok_iff.1 h
    exact Except.map_eq_ok_iff.2 ⟨v?, hg v v? hv?, hresult⟩

end

end Fields

/-! ### Names -/

/-- Changes a text; any other value stays as it is. -/
def Json.onText (σ : String → String) : Json → Json
  | .str s => .str (σ s)
  | v => v

namespace TransitionSlot

/-- An entry of a list with another name. -/
def mapEntry (σ : String → String) : Json → Json :=
  Json.onRecord (Fields.alter (fun v => some (v.onText σ)) transitionKey)

theorem mapEntry_clearEntry (σ : String → String) {v : Json} (h : v.Keyed) :
    mapEntry σ (clearEntry v) = clearEntry v := by
  cases v with
  | obj entry =>
    exact congrArg Json.obj (Fields.alter_eq_self
      (Fields.get?_erase_self (Json.KeyedFields.nodup h) transitionKey))
  | _ => rfl

theorem mapEntry_named (σ : String → String) (entry : Fields) (name : String) :
    mapEntry σ (.obj (entry.insert transitionKey (.str name))) = .obj
      ((entry.alter (fun v => some (v.onText σ)) transitionKey).insert transitionKey
        (.str (σ name))) :=
  congrArg Json.obj (Fields.alter_some_insert_self (Json.onText σ) entry transitionKey (.str name))

end TransitionSlot

namespace TransitionRule

open TransitionSlot

/-- The changes of values that put other names into the places of names. -/
def namings (r : TransitionRule) (σ : String → String) : List (String × (Json → Json)) :=
  r.fixedKeys.map (·, Json.onText σ) ++
    r.list?.toList.map (·, Json.onList (List.mapFirst r.mostBranches (mapEntry σ)))

/-- The fields with another name for each name behind a port. -/
def mapNames (r : TransitionRule) (σ : String → String) (fields : Fields) : Fields :=
  fields.mapValues (r.namings σ)

variable {r : TransitionRule} {σ : String → String} {fields result : Fields}

theorem keys_namings (r : TransitionRule) (σ : String → String) :
    (r.namings σ).map Prod.fst = r.ownKeys := by
  rw [namings, List.map_append, List.map_map, List.map_map]
  exact congrArg₂ _ (List.map_id _) (List.map_id _)

theorem nodup_namings (r : TransitionRule) (σ : String → String) :
    ((r.namings σ).map Prod.fst).Nodup :=
  r.keys_namings σ ▸ r.nodup_ownKeys

theorem mem_namings_of_fixed {key : String} (h : key ∈ r.fixedKeys) :
    (key, Json.onText σ) ∈ r.namings σ :=
  List.mem_append_left _ (List.mem_map_of_mem h)

theorem mem_namings_of_list {list : String} (h : r.list? = some list) :
    (list, Json.onList (List.mapFirst r.mostBranches (mapEntry σ))) ∈ r.namings σ :=
  List.mem_append_right _ (List.mem_map_of_mem (Option.mem_toList.2 h))

/-- A name that is written and then changed is the changed name that is written. -/
theorem mapNames_write (σ : String → String) {port : Port} {s : TransitionSlot} {name : String}
    (hs : r.slot? port = some s) (hw : s.write fields name = some result) :
    s.write (r.mapNames σ fields) (σ name) = some (r.mapNames σ result) := by
  rcases slot_cases hs hw with ⟨key, hkey, hskey⟩ | ⟨list, index, hl, hlt, rfl⟩
  · rw [write_of_key hskey] at hw ⊢
    obtain rfl := Option.some.inj hw
    rw [mapNames, mapNames,
      Fields.mapValues_insert_of_mem (r.nodup_namings σ) (mem_namings_of_fixed hkey)]
    rfl
  · obtain ⟨items, entry, hitems, hentry, rfl⟩ := write_branch_eq_some_iff.1 hw
    have hmem : _ ∈ r.namings σ := mem_namings_of_list hl
    refine write_branch_eq_some_iff.2 ⟨items.mapFirst r.mostBranches (mapEntry σ),
      Fields.alter (fun v => some (v.onText σ)) transitionKey entry, ?_, ?_, ?_⟩
    · rw [mapNames, Fields.get?_mapValues_of_mem (r.nodup_namings σ) hmem, hitems]
      rfl
    · rw [List.getElem?_mapFirst hlt, hentry]
      rfl
    · rw [mapNames, Fields.mapValues_insert_of_mem (r.nodup_namings σ) hmem, Json.onList,
        List.mapFirst_set hlt, mapEntry_named]
      rfl

/-- Fields without names have no names to change. -/
theorem mapNames_strip (σ : String → String) (h : Json.KeyedFields fields) :
    r.mapNames σ (r.strip fields) = r.strip fields := by
  refine Fields.mapValues_eq_self fun c hc v hv => ?_
  rcases List.mem_append.1 hc with hc | hc
  · obtain ⟨key, hkey, rfl⟩ := List.mem_map.1 hc
    rw [get?_strip_of_fixed h.nodup hkey] at hv
    cases hv
  · obtain ⟨list, hl, rfl⟩ := List.mem_map.1 hc
    rw [strip_eq_alterAll, Fields.get?_alterAll_of_mem r.nodup_clearings h.nodup
      (List.mem_append_right _ (List.mem_map_of_mem hl))] at hv
    obtain ⟨u, hu, hv⟩ := Option.bind_eq_some_iff.1 hv
    obtain rfl := Option.some.inj hv
    cases u with
    | arr items =>
      refine congrArg Json.arr (List.mapFirst_eq_self fun w hw => ?_)
      rw [take_clearBranches] at hw
      obtain ⟨item, hitem, rfl⟩ := List.mem_map.1 hw
      exact mapEntry_clearEntry σ
        (Json.keyedItems_iff.1 (h.of_get? hu) item (List.mem_of_mem_take hitem))
    | _ => rfl

end TransitionRule

/-! ### Transforms beside the names -/

namespace TransformPlace

open TransitionSlot

/-- The path of a transform matters only in an error. -/
theorem encodeAt_path {fields result : Fields} {key path : String}
    (h : fields.encodeAt key path = .ok result) (path' : String) :
    fields.encodeAt key path' = .ok result := by
  unfold Fields.encodeAt at h ⊢
  split
  next hv =>
    rw [hv] at h
    exact h
  next v hv =>
    rw [hv] at h
    cases he : Transform.encodeValue v with
    | ok v? =>
      simp only [he] at h ⊢
      exact h
    | error f => simp [he] at h

/-- Records that are changed alike, in one list and in another. -/
theorem eachRecord_mapFirst {change change' : Nat → Fields → Except CodecError Fields}
    {f : Fields → Fields}
    (hchange : ∀ i record result, change i record = .ok result →
      change' i (f record) = .ok (f result) ∧ change' i record = .ok result)
    {start : Nat} {items result : List Json} (h : eachRecord change start items = .ok result)
    (n : Nat) : eachRecord change' start (items.mapFirst n (Json.onRecord f))
      = .ok (result.mapFirst n (Json.onRecord f)) := by
  induction items generalizing start result n with
  | nil =>
    cases h
    cases n <;> rfl
  | cons v rest ih =>
    cases v with
    | obj record =>
      rw [eachRecord] at h
      obtain ⟨record', hrecord, h⟩ := Except.bind_eq_ok_iff.1 h
      obtain ⟨rest', hrest, h⟩ := Except.bind_eq_ok_iff.1 h
      obtain rfl := Except.pure_eq_ok_iff.1 h
      obtain ⟨hmapped, hsame⟩ := hchange _ _ _ hrecord
      -- Behind the first `n` items the records are as they were, and have to be read as such.
      cases n with
      | zero =>
        exact Except.bind_eq_ok_iff.2 ⟨record', hsame,
          Except.bind_eq_ok_iff.2 ⟨rest', ih hrest 0, rfl⟩⟩
      | succ n =>
        exact Except.bind_eq_ok_iff.2 ⟨f record', hmapped,
          Except.bind_eq_ok_iff.2 ⟨_, ih hrest n, rfl⟩⟩
    | _ =>
      simp only [eachRecord] at h
      obtain ⟨rest', hrest, h⟩ := Except.bind_eq_ok_iff.1 h
      obtain rfl := Except.pure_eq_ok_iff.1 h
      cases n with
      | zero => exact Except.bind_eq_ok_iff.2 ⟨rest', ih hrest 0, rfl⟩
      | succ n => exact Except.bind_eq_ok_iff.2 ⟨_, ih hrest n, rfl⟩

/-- What a transform is encoded to does not depend on the state that an error would name. -/
theorem encode_owner {p : TransformPlace} {id : String} {form fields : Fields}
    (h : p.encode id form = .ok fields) (id' : String) : p.encode id' form = .ok fields := by
  rw [encode_eq_alterM] at h ⊢
  refine Fields.alterM_congr h fun v v? hv => ?_
  cases p with
  | field key =>
    simp only [encoded, Fields.encodedAt] at hv ⊢
    cases he : Transform.encodeValue v with
    | ok w? => simpa only [he] using hv
    | error f => simp [he] at hv
  | nested outer key =>
    cases v with
    | obj record =>
      obtain ⟨record', hrecord, hv⟩ := Except.bind_eq_ok_iff.1 hv
      exact Except.bind_eq_ok_iff.2 ⟨record', encodeAt_path hrecord _, hv⟩
    | _ => exact hv
  | eachIn list key =>
    cases v with
    | arr items =>
      obtain ⟨items', hitems, hv⟩ := Except.bind_eq_ok_iff.1 hv
      have hsame : eachRecord (fun i record => record.encodeAt key
          (id' ++ "." ++ list ++ "[" ++ toString i ++ "]." ++ key)) 0 items = .ok items' :=
        eachRecord_mapFirst (f := fun record => record)
          (fun i record result hrecord => ⟨encodeAt_path hrecord _, encodeAt_path hrecord _⟩) hitems 0
      exact Except.bind_eq_ok_iff.2 ⟨items', hsame, hv⟩
    | _ => exact hv

/-- Transforms are encoded alike beside other names. -/
theorem encode_mapNames {r : TransitionRule} {p : TransformPlace} (hapart : p.apart r = true)
    (σ : String → String) {id : String} {form fields : Fields} (h : p.encode id form = .ok fields) :
    p.encode id (r.mapNames σ form) = .ok (r.mapNames σ fields) := by
  obtain ⟨hfixed, hlist⟩ := outer_of_apart hapart
  rw [encode_eq_alterM] at h ⊢
  refine Fields.alterM_mapValues h fun c hc => ?_
  rcases List.mem_append.1 hc with hc | hc
  · obtain ⟨key, hkey, rfl⟩ := List.mem_map.1 hc
    exact .inl fun he => hfixed (he ▸ hkey)
  · obtain ⟨list, hl, rfl⟩ := List.mem_map.1 hc
    by_cases he : p.outer = list
    · -- The entries that are named also hold a transform, under another key.
      obtain ⟨key, hpkey, hne⟩ := hlist (he ▸ Option.mem_toList.1 hl)
      refine .inr ⟨he.symm, fun v v? hv => ?_⟩
      rw [hpkey] at hv ⊢
      cases v with
      | arr items =>
        obtain ⟨items', hitems, hv⟩ := Except.bind_eq_ok_iff.1 hv
        obtain rfl := Except.pure_eq_ok_iff.1 hv
        refine ⟨_, rfl, Except.bind_eq_ok_iff.2 ⟨_, eachRecord_mapFirst ?_ hitems _, rfl⟩⟩
        intro i record result hrecord
        refine ⟨?_, hrecord⟩
        rw [Fields.encodeAt_eq_alterM] at hrecord ⊢
        exact Fields.alterM_alter_of_ne hrecord hne _
      | _ =>
        obtain rfl := Except.ok.inj hv
        exact ⟨_, rfl, rfl⟩
    · exact .inl he

end TransformPlace

namespace NodeType

open Compile

variable {t : NodeType} {form fields : Fields}

theorem ofForm_owner {id : String} (h : t.form.ofForm id form = .ok fields) (id' : String) :
    t.form.ofForm id' form = .ok fields := by
  rw [FormRule.ofForm_eq] at h ⊢
  generalize t.form.places = places at h ⊢
  induction places generalizing form with
  | nil => exact h
  | cons p rest ih =>
    obtain ⟨mid, hmid, h⟩ := Except.bind_eq_ok_iff.1 h
    exact Except.bind_eq_ok_iff.2 ⟨mid, TransformPlace.encode_owner hmid id', ih h⟩

/-- The fields for a form with other names are the fields with other names. -/
theorem ofForm_mapNames (hapart : t.apart = true) (σ : String → String) {id : String}
    (h : t.form.ofForm id form = .ok fields) :
    t.form.ofForm id (t.transitions.mapNames σ form) = .ok (t.transitions.mapNames σ fields) := by
  have hplaces := apart_places hapart
  rw [FormRule.ofForm_eq] at h ⊢
  generalize t.form.places = places at h hplaces ⊢
  induction places generalizing form with
  | nil =>
    obtain rfl := Except.ok.inj h
    rfl
  | cons p rest ih =>
    obtain ⟨mid, hmid, h⟩ := Except.bind_eq_ok_iff.1 h
    exact Except.bind_eq_ok_iff.2 ⟨_,
      TransformPlace.encode_mapNames (hplaces p List.mem_cons_self) σ hmid,
      ih h fun p hp => hplaces p (List.mem_cons_of_mem _ hp)⟩

/-- Names that are written and then changed are the changed names that are written. -/
theorem writeAll_map (r : TransitionRule) (σ : String → String)
    {names : List (TransitionSlot × String)}
    (hnames : ∀ w ∈ names, ∃ port, r.slot? port = some w.1) {result : Fields}
    (h : writeAll fields names = some result) :
    writeAll (r.mapNames σ fields) (names.map fun w => (w.1, σ w.2))
      = some (r.mapNames σ result) := by
  induction names generalizing fields with
  | nil =>
    cases h
    rfl
  | cons w rest ih =>
    obtain ⟨mid, hmid, h⟩ := Option.bind_eq_some_iff.1 h
    obtain ⟨port, hs⟩ := hnames w List.mem_cons_self
    exact Option.bind_eq_some_iff.2 ⟨_, TransitionRule.mapNames_write σ hs hmid,
      ih (fun w hw => hnames w (List.mem_cons_of_mem _ hw)) h⟩

end NodeType

end Workflow
