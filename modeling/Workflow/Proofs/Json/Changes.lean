import Workflow.Proofs.Except
import Workflow.Proofs.Json.Alter

/-!
# Changes one after another

Several changes of values under keys make one change of a record. Changes under different keys can
be made in either order (`Fields.alterAll_comm`), changes under one key are composed
(`Fields.alterAll_alterAll`), and a step that may fail takes a change back (`Fields.alterM_alter`).
-/

namespace Workflow.Fields

variable {fields : Fields} {key : String}

theorem erase_eq_alter (fields : Fields) (key : String) :
    fields.erase key = fields.alter (fun _ => none) key := by
  induction fields with
  | nil => rfl
  | cons e rest ih =>
    obtain ⟨k, v⟩ := e
    by_cases hk : k = key
    · simp only [erase, alter, hk, if_true]
    · simp only [erase, alter, hk, if_false, ih]

theorem erase_insert_self (fields : Fields) (key : String) (v : Json) :
    (fields.insert key v).erase key = fields.erase key := by
  induction fields with
  | nil => simp only [insert, erase, if_true]
  | cons e rest ih =>
    obtain ⟨k, u⟩ := e
    by_cases hk : k = key
    · simp only [insert, erase, hk, if_true]
    · simp only [insert, erase, hk, if_false, ih]

/-- Changes under different keys do not interfere. -/
theorem alter_comm {other : String} (h : key ≠ other) (φ ψ : Json → Option Json)
    (fields : Fields) :
    (fields.alter ψ other).alter φ key = (fields.alter φ key).alter ψ other := by
  induction fields with
  | nil => rfl
  | cons e rest ih =>
    obtain ⟨k, v⟩ := e
    by_cases hk : k = key
    · subst hk
      simp only [alter, h, if_true, if_false]
      cases φ v with
      | none => rfl
      | some w => simp only [alter, h, if_false]
    · by_cases ho : k = other
      · subst ho
        simp only [alter, hk, if_true, if_false]
        cases ψ v with
        | none => rfl
        | some w => simp only [alter, hk, if_false]
      · simp only [alter, hk, ho, if_false, ih]

/-- Changes that only replace a value are composed under one key. -/
theorem alter_alter_some (f g : Json → Json) (key : String) (fields : Fields) :
    (fields.alter (fun v => some (g v)) key).alter (fun v => some (f v)) key
      = fields.alter (fun v => some (f (g v))) key := by
  induction fields with
  | nil => rfl
  | cons e rest ih =>
    obtain ⟨k, v⟩ := e
    by_cases hk : k = key
    · simp only [alter, hk, if_true]
    · simp only [alter, hk, if_false, ih]

/-- Changes under one key are composed, as no record repeats a key. -/
theorem alter_alter (h : fields.keys.Nodup) (φ ψ : Json → Option Json) :
    (fields.alter φ key).alter ψ key = fields.alter (fun v => (φ v).bind ψ) key := by
  cases hv : fields.get? key with
  | none => rw [alter_eq_self hv, alter_eq_self hv, alter_eq_self hv]
  | some v =>
    rw [alter_eq_assign hv, alter_eq_assign hv]
    cases φ v with
    | none => exact alter_eq_self (get?_erase_self h key)
    | some w =>
      have hw : (fields.assign key (some w)).get? key = some w := get?_insert_self fields key w
      rw [alter_eq_assign hw, Option.bind_some]
      cases ψ w with
      | none => exact erase_insert_self fields key w
      | some u => exact insert_insert fields key w u

theorem alter_congr {φ ψ : Json → Option Json}
    (h : ∀ v, fields.get? key = some v → φ v = ψ v) : fields.alter φ key = fields.alter ψ key := by
  cases hv : fields.get? key with
  | none => rw [alter_eq_self hv, alter_eq_self hv]
  | some v => rw [alter_eq_assign hv, alter_eq_assign hv, h v hv]

theorem get?_alter_of_ne (φ : Json → Option Json) {other : String} (h : other ≠ key) :
    (fields.alter φ key).get? other = fields.get? other := by
  cases hv : fields.get? key with
  | none => rw [alter_eq_self hv]
  | some v =>
    rw [alter_eq_assign hv]
    cases φ v with
    | none => exact get?_erase_of_ne fields h
    | some w => exact get?_insert_of_ne fields w h

theorem get?_alter_some (f : Json → Json) (fields : Fields) (key : String) :
    (fields.alter (fun v => some (f v)) key).get? key = (fields.get? key).map f := by
  cases hv : fields.get? key with
  | none => rw [alter_eq_self hv, hv]; rfl
  | some v =>
    rw [alter_eq_assign hv]
    exact get?_insert_self fields key (f v)

/-- A value that is put under another key does not interfere with a change. -/
theorem alter_insert_of_ne {other : String} (h : key ≠ other) (φ : Json → Option Json) (v : Json)
    (fields : Fields) :
    (fields.insert other v).alter φ key = (fields.alter φ key).insert other v := by
  induction fields with
  | nil => simp only [insert, alter, h.symm, if_false]
  | cons e rest ih =>
    obtain ⟨k, u⟩ := e
    by_cases hk : k = key
    · subst hk
      simp only [insert, alter, h, if_true, if_false]
      cases φ u with
      | none => rfl
      | some w => simp only [insert, h, if_false]
    · by_cases ho : k = other
      · subst ho
        simp only [insert, alter, hk, if_true, if_false]
      · simp only [insert, alter, hk, ho, if_false, ih]

/-- Makes several changes, one after the other. -/
def alterAll (changes : List (String × (Json → Option Json))) (fields : Fields) : Fields :=
  changes.foldl (fun acc c => acc.alter c.2 c.1) fields

theorem alterAll_append (cs ds : List (String × (Json → Option Json))) (fields : Fields) :
    fields.alterAll (cs ++ ds) = (fields.alterAll cs).alterAll ds :=
  List.foldl_append

/-- A change that leaves the value under its key changes nothing. -/
theorem alter_of_fixed {φ : Json → Option Json}
    (h : ∀ v, fields.get? key = some v → φ v = some v) : fields.alter φ key = fields := by
  cases hv : fields.get? key with
  | none => exact alter_eq_self hv
  | some v =>
    rw [alter_eq_assign hv, h v hv]
    exact insert_of_get? hv

theorem alterAll_of_fixed {cs : List (String × (Json → Option Json))}
    (h : ∀ c ∈ cs, ∀ v, fields.get? c.1 = some v → c.2 v = some v) : fields.alterAll cs = fields := by
  induction cs with
  | nil => rfl
  | cons c rest ih =>
    show (fields.alter c.2 c.1).alterAll rest = fields
    rw [alter_of_fixed (h c List.mem_cons_self)]
    exact ih fun c hc => h c (List.mem_cons_of_mem _ hc)

/-- Two changes can be made in either order. -/
def Commute (c d : String × (Json → Option Json)) : Prop :=
  ∀ fields : Fields, (fields.alter d.2 d.1).alter c.2 c.1 = (fields.alter c.2 c.1).alter d.2 d.1

theorem Commute.of_ne {c d : String × (Json → Option Json)} (h : c.1 ≠ d.1) : Commute c d :=
  alter_comm h c.2 d.2

theorem Commute.of_comp {f g : Json → Json} (h : ∀ v, f (g v) = g (f v)) (key : String) :
    Commute (key, fun v => some (f v)) (key, fun v => some (g v)) := by
  intro fields
  rw [alter_alter_some, alter_alter_some]
  exact alter_congr fun v _ => congrArg some (h v)

theorem alterAll_comm {cs ds : List (String × (Json → Option Json))}
    (h : ∀ c ∈ cs, ∀ d ∈ ds, Commute c d) (fields : Fields) :
    (fields.alterAll ds).alterAll cs = (fields.alterAll cs).alterAll ds := by
  have hone : ∀ c, (∀ d ∈ ds, Commute c d) → ∀ fields : Fields,
      (fields.alterAll ds).alter c.2 c.1 = (fields.alter c.2 c.1).alterAll ds := by
    intro c hc
    induction ds with
    | nil => exact fun _ => rfl
    | cons d rest ih =>
      intro fields
      have hrest := ih (fun c hc d hd => h c hc d (List.mem_cons_of_mem _ hd))
        (fun d hd => hc d (List.mem_cons_of_mem _ hd)) (fields.alter d.2 d.1)
      have hfirst := hc d List.mem_cons_self fields
      simp only [alterAll, List.foldl_cons] at hrest ⊢
      rw [hrest, hfirst]
  induction cs generalizing fields with
  | nil => rfl
  | cons c rest ih =>
    have hrest := ih (fun c hc => h c (List.mem_cons_of_mem _ hc)) (fields.alter c.2 c.1)
    have hfirst := hone c (h c List.mem_cons_self) fields
    simp only [alterAll, List.foldl_cons] at hrest hfirst ⊢
    rw [hfirst, hrest]

theorem nodup_alter (h : fields.keys.Nodup) (φ : Json → Option Json) (key : String) :
    (fields.alter φ key).keys.Nodup :=
  (puts_alter h φ key).nodup

theorem get?_alterAll_of_not_mem {cs : List (String × (Json → Option Json))}
    (h : key ∉ cs.map Prod.fst) : (fields.alterAll cs).get? key = fields.get? key := by
  induction cs generalizing fields with
  | nil => rfl
  | cons c rest ih =>
    rw [List.map_cons, List.mem_cons, not_or] at h
    exact (ih h.2).trans (get?_alter_of_ne c.2 h.1)

theorem get?_alterAll_of_mem {cs : List (String × (Json → Option Json))}
    (hkeys : (cs.map Prod.fst).Nodup) (hnd : fields.keys.Nodup) {φ : Json → Option Json}
    (hmem : (key, φ) ∈ cs) :
    (fields.alterAll cs).get? key = (fields.get? key).bind φ := by
  induction cs generalizing fields with
  | nil => cases hmem
  | cons c rest ih =>
    obtain ⟨hnot, hkeys⟩ := List.nodup_cons.1 hkeys
    show ((fields.alter c.2 c.1).alterAll rest).get? key = _
    rcases List.mem_cons.1 hmem with rfl | hmem
    · rw [get?_alterAll_of_not_mem hnot, (puts_alter hnd φ key).self]
    · have hne : key ≠ c.1 := fun he => hnot (he ▸ List.mem_map_of_mem hmem)
      rw [ih hkeys (nodup_alter hnd c.2 c.1) hmem, get?_alter_of_ne c.2 hne]

/-- A change of the value under a key alone does not see what else was changed. -/
theorem alter_alterAll {cs : List (String × (Json → Option Json))} {φ : Json → Option Json}
    (h : key ∉ cs.map Prod.fst) (fields : Fields) :
    (fields.alterAll cs).alter φ key = (fields.alter φ key).alterAll cs := by
  show (fields.alterAll cs).alterAll [(key, φ)] = (fields.alterAll [(key, φ)]).alterAll cs
  refine alterAll_comm (fun c hc d hd => ?_) fields
  obtain rfl := List.mem_singleton.1 hc
  exact .of_ne fun he : key = d.1 => h (he ▸ List.mem_map_of_mem hd)

/-- A change under one key leaves the values under the keys of a list without it. -/
theorem get?_of_alter {β : Type} {keyOf : β → String} {bs : List β} (hnot : key ∉ bs.map keyOf)
    {φ : Json → Option Json} {b : β} (hb : b ∈ bs) {v : Json}
    (hv : (fields.alter φ key).get? (keyOf b) = some v) : fields.get? (keyOf b) = some v := by
  have hne : keyOf b ≠ key := fun he => hnot (he ▸ List.mem_map_of_mem hb)
  rwa [get?_alter_of_ne φ hne] at hv

/-- Changes under keys of their own are composed key by key. -/
theorem alterAll_alterAll {β : Type} {keyOf : β → String} {bs : List β}
    (φ ψ χ : β → Json → Option Json) (hkeys : (bs.map keyOf).Nodup) (hnd : fields.keys.Nodup)
    (h : ∀ b ∈ bs, ∀ v, fields.get? (keyOf b) = some v → (φ b v).bind (ψ b) = χ b v) :
    (fields.alterAll (bs.map fun b => (keyOf b, φ b))).alterAll (bs.map fun b => (keyOf b, ψ b))
      = fields.alterAll (bs.map fun b => (keyOf b, χ b)) := by
  induction bs generalizing fields with
  | nil => rfl
  | cons b rest ih =>
    obtain ⟨hnot, hkeys⟩ := List.nodup_cons.1 hkeys
    have hnot' : keyOf b ∉ (rest.map fun b => (keyOf b, φ b)).map Prod.fst := by
      rwa [List.map_map]
    have hsame : (fields.alter (φ b) (keyOf b)).alter (ψ b) (keyOf b)
        = fields.alter (χ b) (keyOf b) :=
      (alter_alter hnd _ _).trans (alter_congr (h b List.mem_cons_self))
    have hrest := ih hkeys (nodup_alter hnd (χ b) (keyOf b)) fun b' hb' v hv =>
      h b' (List.mem_cons_of_mem _ hb') v (get?_of_alter hnot hb' hv)
    show ((alterAll _ (fields.alter (φ b) (keyOf b))).alter (ψ b) (keyOf b)).alterAll _
      = (fields.alter (χ b) (keyOf b)).alterAll _
    rw [alter_alterAll hnot', hsame, hrest]

theorem assign_insert_self (fields : Fields) (key : String) (w : Json) (v? : Option Json) :
    (fields.insert key w).assign key v? = fields.assign key v? := by
  cases v? with
  | none => exact erase_insert_self fields key w
  | some v => exact insert_insert fields key w v

/-- A value that the change does not tell from the one before leaves no mark. -/
theorem alter_insert_self {φ : Json → Option Json} {w : Json}
    (h : φ w = (fields.get? key).bind φ) :
    (fields.insert key w).alter φ key = fields.alter φ key := by
  rw [alter_eq_assign (get?_insert_self fields key w), assign_insert_self, h]
  cases hv : fields.get? key with
  | none =>
    rw [alter_eq_self hv]
    exact erase_of_not_mem (get?_eq_none_iff.1 hv)
  | some v => exact (alter_eq_assign hv).symm

theorem alter_some_insert_self (f : Json → Json) (fields : Fields) (key : String) (w : Json) :
    (fields.insert key w).alter (fun v => some (f v)) key
      = (fields.alter (fun v => some (f v)) key).insert key (f w) := by
  rw [alter_eq_assign (get?_insert_self fields key w), assign_insert_self]
  cases hv : fields.get? key with
  | none => rw [alter_eq_self hv]; rfl
  | some v =>
    rw [alter_eq_assign hv]
    exact (insert_insert fields key (f v) (f w)).symm

theorem alterAll_insert_of_not_mem {cs : List (String × (Json → Option Json))}
    (h : key ∉ cs.map Prod.fst) (fields : Fields) (w : Json) :
    (fields.insert key w).alterAll cs = (fields.alterAll cs).insert key w := by
  induction cs generalizing fields with
  | nil => rfl
  | cons c rest ih =>
    rw [List.map_cons, List.mem_cons, not_or] at h
    have hfirst := alter_insert_of_ne (Ne.symm h.1) c.2 w fields
    show alterAll rest ((fields.insert key w).alter c.2 c.1)
      = (alterAll rest (fields.alter c.2 c.1)).insert key w
    rw [hfirst, ih h.2]

theorem alterAll_insert_of_mem {cs : List (String × (Json → Option Json))}
    (hkeys : (cs.map Prod.fst).Nodup) {φ : Json → Option Json} {w : Json} (hmem : (key, φ) ∈ cs)
    (h : φ w = (fields.get? key).bind φ) :
    (fields.insert key w).alterAll cs = fields.alterAll cs := by
  induction cs generalizing fields with
  | nil => cases hmem
  | cons c rest ih =>
    obtain ⟨hnot, hkeys⟩ := List.nodup_cons.1 hkeys
    show alterAll rest ((fields.insert key w).alter c.2 c.1)
      = alterAll rest (fields.alter c.2 c.1)
    rcases List.mem_cons.1 hmem with rfl | hmem
    · rw [alter_insert_self h]
    · have hne : c.1 ≠ key := fun he => hnot (he ▸ List.mem_map_of_mem hmem)
      rw [alter_insert_of_ne hne]
      exact ih hkeys hmem (by rw [get?_alter_of_ne c.2 hne.symm, h])

/-- Changes that keep the records inside of a value keyed. -/
theorem keyed_alterAll {cs : List (String × (Json → Option Json))} (hk : Json.KeyedFields fields)
    (h : ∀ c ∈ cs, ∀ v w, v.Keyed → c.2 v = some w → w.Keyed) :
    Json.KeyedFields (fields.alterAll cs) := by
  induction cs generalizing fields with
  | nil => exact hk
  | cons c rest ih =>
    refine ih ?_ fun c hc => h c (List.mem_cons_of_mem _ hc)
    show Json.KeyedFields (fields.alter c.2 c.1)
    cases hv : fields.get? c.1 with
    | none => rwa [alter_eq_self hv]
    | some v =>
      rw [alter_eq_assign hv]
      cases hw : c.2 v with
      | none => exact hk.erase c.1
      | some w => exact hk.insert c.1 (h c List.mem_cons_self v w (hk.of_get? hv) hw)

/-! ### Changes that may fail -/

/-- Changes the value under a key, if there is one, by a step that may fail. -/
def alterM {ε : Type} (f : Json → Except ε (Option Json)) (key : String) (fields : Fields) :
    Except ε Fields :=
  match fields.get? key with
  | none => .ok fields
  | some v => fields.assign key <$> f v

/-- What is put under a key that is there does not interfere with another key. -/
theorem assign_insert_of_ne {other : String} (h : key ≠ other) {v : Json}
    (hv : fields.get? key = some v) (v? : Option Json) (w : Json) :
    (fields.insert other w).assign key v? = (fields.assign key v?).insert other w := by
  have hv' : (fields.insert other w).get? key = some v := by rw [get?_insert_of_ne _ _ h, hv]
  have hchange := alter_insert_of_ne h (fun _ => v?) w fields
  rwa [alter_eq_assign hv, alter_eq_assign hv'] at hchange

section

variable {ε : Type} {f : Json → Except ε (Option Json)}

theorem get?_of_alterM {result : Fields} (h : fields.alterM f key = .ok result) {other : String}
    (hne : other ≠ key) : result.get? other = fields.get? other := by
  unfold alterM at h
  split at h
  next =>
    cases h
    rfl
  next v _ =>
    obtain ⟨v?, -, rfl⟩ := Except.map_eq_ok_iff.1 h
    cases v? with
    | none => exact get?_erase_of_ne fields hne
    | some w => exact get?_insert_of_ne fields w hne

/-- What is put under another key does not matter. -/
theorem alterM_insert_of_ne {result : Fields} (h : fields.alterM f key = .ok result)
    {other : String} (hne : key ≠ other) (w : Json) :
    (fields.insert other w).alterM f key = .ok (result.insert other w) := by
  unfold alterM at h ⊢
  rw [get?_insert_of_ne fields w hne]
  cases hv : fields.get? key with
  | none =>
    rw [hv] at h
    obtain rfl := Except.ok.inj h
    rfl
  | some v =>
    rw [hv] at h
    obtain ⟨v?, hv?, rfl⟩ := Except.map_eq_ok_iff.1 h
    exact Except.map_eq_ok_iff.2 ⟨v?, hv?, assign_insert_of_ne hne hv v? w⟩

/-- A step that takes back a change, up to another change. -/
theorem alterM_alter (hnd : fields.keys.Nodup) {φ ψ : Json → Option Json}
    (hsome : ∀ v w, fields.get? key = some v → φ v = some w → f w = .ok (ψ v))
    (hnone : ∀ v, fields.get? key = some v → φ v = none → ψ v = none) :
    (fields.alter φ key).alterM f key = .ok (fields.alter ψ key) := by
  unfold alterM
  cases hv : fields.get? key with
  | none => rw [alter_eq_self hv, alter_eq_self hv, hv]
  | some v =>
    rw [alter_eq_assign hv, alter_eq_assign hv]
    cases hw : φ v with
    | none =>
      have hget : (fields.assign key none).get? key = none := get?_erase_self hnd key
      rw [hget, hnone v hv hw]
    | some w =>
      have hget : (fields.assign key (some w)).get? key = some w := get?_insert_self fields key w
      rw [hget]
      exact Except.map_eq_ok_iff.2 ⟨ψ v, hsome v w hv hw, assign_insert_self fields key w (ψ v)⟩

end

end Workflow.Fields
