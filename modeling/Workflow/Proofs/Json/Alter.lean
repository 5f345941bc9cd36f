import Workflow.Proofs.Json.Keyed
import Workflow.Transform.Codec

/-!
# Changing the value under a key

Whatever is done to the transforms, the retries and the names of a state changes values under a few
keys and leaves the others. `Fields.Puts` says this of one key, and `Fields.foldlM_puts` of one key
after the other. `Fields.alter` is the plain form of such a change.
-/

namespace Workflow.Fields

/-- Changes the value under a key, if there is one; the key is removed when there is no new
value. -/
def alter (φ : Json → Option Json) (key : String) : Fields → Fields
  | [] => []
  | (k, v) :: rest =>
    if k = key then
      match φ v with
      | some w => (k, w) :: rest
      | none => rest
    else (k, v) :: alter φ key rest

/-- The record `result` has the value `v?` under a key, and under every other key what `fields`
has. It repeats no key. -/
structure Puts (fields : Fields) (key : String) (v? : Option Json) (result : Fields) : Prop where
  nodup : result.keys.Nodup
  self : result.get? key = v?
  other : ∀ k, k ≠ key → result.get? k = fields.get? k

variable {fields : Fields} {key : String}

theorem nodup_insert (h : fields.keys.Nodup) (key : String) (v : Json) :
    (fields.insert key v).keys.Nodup := by
  rw [keys_insert]
  split
  next => exact h
  next hnot =>
    refine List.nodup_append.2 ⟨h, List.pairwise_singleton _ _, ?_⟩
    rintro k hk _ hkey rfl
    exact hnot (List.mem_singleton.1 hkey ▸ hk)

theorem puts_self (h : fields.keys.Nodup) {v? : Option Json} (hv : fields.get? key = v?) :
    fields.Puts key v? fields :=
  ⟨h, hv, fun _ _ => rfl⟩

theorem puts_insert (h : fields.keys.Nodup) (key : String) (v : Json) :
    fields.Puts key (some v) (fields.insert key v) :=
  ⟨nodup_insert h key v, get?_insert_self .., fun _ hk => get?_insert_of_ne fields v hk⟩

theorem puts_erase (h : fields.keys.Nodup) (key : String) :
    fields.Puts key none (fields.erase key) where
  nodup := by
    rw [keys_erase]
    exact h.erase key
  self := get?_erase_self h key
  other _ hk := get?_erase_of_ne fields hk

theorem puts_assign (h : fields.keys.Nodup) (key : String) (v? : Option Json) :
    fields.Puts key v? (fields.assign key v?) := by
  cases v? with
  | none => exact puts_erase h key
  | some v => exact puts_insert h key v

theorem alter_eq_self {φ : Json → Option Json} (h : fields.get? key = none) :
    alter φ key fields = fields := by
  induction fields with
  | nil => rfl
  | cons e rest ih =>
    by_cases hk : e.1 = key
    · rw [get?, if_pos hk] at h
      cases h
    · rw [get?, if_neg hk] at h
      rw [alter, if_neg hk, ih h]

theorem alter_eq_assign {φ : Json → Option Json} {v : Json} (h : fields.get? key = some v) :
    alter φ key fields = fields.assign key (φ v) := by
  induction fields with
  | nil => cases h
  | cons e rest ih =>
    obtain ⟨k, u⟩ := e
    by_cases hk : k = key
    · rw [get?, if_pos hk] at h
      cases h
      simp only [alter, hk, if_true]
      cases φ v <;> simp only [assign, insert, erase, if_true]
    · rw [get?, if_neg hk] at h
      simp only [alter, hk, if_false, ih h]
      cases φ v <;> simp only [assign, insert, erase, hk, if_false]

theorem puts_alter (h : fields.keys.Nodup) (φ : Json → Option Json) (key : String) :
    fields.Puts key ((fields.get? key).bind φ) (fields.alter φ key) := by
  cases hv : fields.get? key with
  | none =>
    rw [alter_eq_self hv]
    exact puts_self h hv
  | some v =>
    rw [alter_eq_assign hv]
    exact puts_assign h key (φ v)

/-- Values that are put under the same key override one another. -/
theorem Puts.trans {u? v? : Option Json} {mid result : Fields} (h : fields.Puts key u? mid)
    (h' : mid.Puts key v? result) : fields.Puts key v? result :=
  ⟨h'.nodup, h'.self, fun k hk => (h'.other k hk).trans (h.other k hk)⟩

/-- Steps that each put a value under a key of their own, taken one after the other; `R` tells what
is known of the values. A step may look at the value that it replaces. -/
theorem foldlM_puts {β ε : Type} (step : Fields → β → Except ε Fields) {keyOf : β → String}
    (R : β → Option Json → Prop) {bs : List β} (hkeys : (bs.map keyOf).Nodup)
    (hnd : fields.keys.Nodup)
    (hstep : ∀ b ∈ bs, ∀ mid : Fields, mid.keys.Nodup →
      mid.get? (keyOf b) = fields.get? (keyOf b) →
      ∃ v? result, step mid b = .ok result ∧ mid.Puts (keyOf b) v? result ∧ R b v?) :
    ∃ result, bs.foldlM step fields = .ok result ∧ result.keys.Nodup ∧
      (∀ b ∈ bs, R b (result.get? (keyOf b))) ∧
      ∀ k, k ∉ bs.map keyOf → result.get? k = fields.get? k := by
  induction bs generalizing fields with
  | nil => exact ⟨fields, rfl, hnd, nofun, fun _ _ => rfl⟩
  | cons b rest ih =>
    obtain ⟨hnot, hkeys⟩ := List.nodup_cons.1 hkeys
    obtain ⟨v?, mid, hmid, hputs, hR⟩ := hstep b List.mem_cons_self fields hnd rfl
    have hsame : ∀ b' ∈ rest, mid.get? (keyOf b') = fields.get? (keyOf b') := fun b' hb' =>
      hputs.other _ fun he => hnot (he ▸ List.mem_map_of_mem hb')
    obtain ⟨result, hresult, hnodup, hself, hother⟩ := ih hkeys hputs.nodup
      fun b' hb' mid' hnd' hget => hstep b' (List.mem_cons_of_mem _ hb') mid' hnd'
        (hget.trans (hsame b' hb'))
    refine ⟨result, ?_, hnodup, ?_, ?_⟩
    · rw [List.foldlM_cons, hmid]
      exact hresult
    · intro b' hb'
      rcases List.mem_cons.1 hb' with rfl | hb'
      · rw [hother _ hnot, hputs.self]
        exact hR
      · exact hself b' hb'
    · intro k hk
      rw [List.map_cons, List.mem_cons, not_or] at hk
      rw [hother k hk.2, hputs.other k hk.1]

/-- Steps that cannot fail, as `foldlM_puts`. -/
theorem foldl_puts {β : Type} (step : Fields → β → Fields) {keyOf : β → String}
    (value : β → Option Json → Option Json) {bs : List β} (hkeys : (bs.map keyOf).Nodup)
    (hnd : fields.keys.Nodup)
    (hstep : ∀ b ∈ bs, ∀ mid : Fields, mid.keys.Nodup →
      mid.Puts (keyOf b) (value b (mid.get? (keyOf b))) (step mid b)) :
    (bs.foldl step fields).keys.Nodup ∧
      (∀ b ∈ bs, (bs.foldl step fields).get? (keyOf b) = value b (fields.get? (keyOf b))) ∧
      ∀ k, k ∉ bs.map keyOf → (bs.foldl step fields).get? k = fields.get? k := by
  obtain ⟨result, hresult, h⟩ := foldlM_puts (fun acc b => (.ok (step acc b) : Except Unit Fields))
    (fun b v? => v? = value b (fields.get? (keyOf b))) hkeys hnd fun b hb mid hmid hget =>
      ⟨_, _, rfl, hstep b hb mid hmid, by rw [hget]⟩
  have hresult : bs.foldlM (fun acc b => (pure (step acc b) : Except Unit Fields)) fields
      = .ok result := hresult
  rw [List.foldlM_pure] at hresult
  obtain rfl : bs.foldl step fields = result := Except.ok.inj hresult
  exact h

end Workflow.Fields
