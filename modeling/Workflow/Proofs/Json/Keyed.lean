import Mathlib.Data.List.Nodup
import Workflow.Json.Basic

/-!
# Records that repeat no key

The operations of `Fields` look at the first field with a key. `Json.Keyed` says that no record in a
value repeats a key, so that the first one is the only one; every value that is read is of this
kind (`Json.keyed_merged`), and merging the records of such a value changes nothing
(`Json.merged_of_keyed`).
-/

namespace Workflow

namespace Fields

@[simp] theorem keys_cons (e : String × Json) (rest : Fields) :
    keys (e :: rest) = e.1 :: keys rest := rfl

theorem get?_eq_none_iff {fields : Fields} {key : String} :
    fields.get? key = none ↔ key ∉ fields.keys := by
  induction fields with
  | nil => simp [get?, keys]
  | cons e rest ih =>
    by_cases h : e.1 = key
    · simp [get?, keys, h]
    · simp only [get?, h, if_false, ih, keys, List.map_cons, List.mem_cons, Ne.symm h, false_or]

theorem mem_of_get? {fields : Fields} {key : String} {v : Json} (h : fields.get? key = some v) :
    (key, v) ∈ fields := by
  induction fields with
  | nil => cases h
  | cons e rest ih =>
    by_cases hk : e.1 = key
    · rw [get?, if_pos hk] at h
      cases h
      exact hk ▸ List.mem_cons_self
    · rw [get?, if_neg hk] at h
      exact List.mem_cons_of_mem _ (ih h)

theorem get?_of_mem {fields : Fields} (hnd : fields.keys.Nodup) {key : String} {v : Json}
    (h : (key, v) ∈ fields) : fields.get? key = some v := by
  induction fields with
  | nil => cases h
  | cons e rest ih =>
    obtain ⟨hnot, hnd⟩ := List.nodup_cons.1 hnd
    rcases List.mem_cons.1 h with rfl | h
    · simp [get?]
    · have hne : e.1 ≠ key := fun he => hnot (he ▸ List.mem_map_of_mem h)
      rw [get?, if_neg hne]
      exact ih hnd h

theorem keys_erase (fields : Fields) (key : String) :
    (fields.erase key).keys = fields.keys.erase key := by
  induction fields with
  | nil => rfl
  | cons e rest ih =>
    by_cases h : e.1 = key
    · simp [erase, keys, h]
    · have ih : (erase rest key).map Prod.fst = (rest.map Prod.fst).erase key := ih
      simp [erase, keys, h, ih]

theorem erase_of_not_mem {fields : Fields} {key : String} (h : key ∉ fields.keys) :
    fields.erase key = fields := by
  induction fields with
  | nil => rfl
  | cons e rest ih =>
    rw [keys_cons, List.mem_cons, not_or] at h
    rw [erase, if_neg (Ne.symm h.1), ih h.2]

theorem mem_of_mem_erase {fields : Fields} {key : String} {e : String × Json}
    (h : e ∈ fields.erase key) : e ∈ fields := by
  induction fields with
  | nil => exact h
  | cons f rest ih =>
    rw [erase] at h
    split at h
    · exact List.mem_cons_of_mem _ h
    · rcases List.mem_cons.1 h with rfl | h
      · exact List.mem_cons_self
      · exact List.mem_cons_of_mem _ (ih h)

theorem get?_erase_self {fields : Fields} (hnd : fields.keys.Nodup) (key : String) :
    (fields.erase key).get? key = none := by
  rw [get?_eq_none_iff, keys_erase]
  exact hnd.not_mem_erase

theorem get?_erase_of_ne (fields : Fields) {key other : String} (h : other ≠ key) :
    (fields.erase key).get? other = fields.get? other := by
  induction fields with
  | nil => rfl
  | cons e rest ih =>
    by_cases hk : e.1 = key
    · rw [erase, if_pos hk, get?, if_neg (hk ▸ Ne.symm h)]
    · rw [erase, if_neg hk, get?, get?, ih]

theorem mem_keys_insert {fields : Fields} {key other : String} {value : Json} :
    other ∈ (fields.insert key value).keys ↔ other = key ∨ other ∈ fields.keys := by
  rw [keys_insert]
  split
  next h =>
    constructor
    · exact .inr
    · rintro (rfl | h')
      · exact h
      · exact h'
  next => rw [List.mem_append, List.mem_singleton, or_comm]

theorem insert_of_not_mem {fields : Fields} {key : String} (h : key ∉ fields.keys) (value : Json) :
    fields.insert key value = fields ++ [(key, value)] := by
  induction fields with
  | nil => rfl
  | cons e rest ih =>
    rw [keys_cons, List.mem_cons, not_or] at h
    rw [insert, if_neg (Ne.symm h.1), ih h.2, List.cons_append]

theorem ofEntries_append (first rest : List (String × Json)) :
    ofEntries (first ++ rest) = (ofEntries first).insertAll rest := List.foldl_append

/-- Entries with different keys are put in one behind the other. -/
theorem insertAll_of_nodup {fields entries : Fields} (h : (fields ++ entries).keys.Nodup) :
    fields.insertAll entries = fields ++ entries := by
  induction entries generalizing fields with
  | nil => rw [List.append_nil]; rfl
  | cons e rest ih =>
    have hnot : e.1 ∉ fields.keys := by
      intro hmem
      rw [keys, List.map_append, List.nodup_append] at h
      exact h.2.2 _ hmem _ List.mem_cons_self rfl
    have hsplit : fields ++ e :: rest = (fields ++ [e]) ++ rest := by simp
    rw [hsplit] at h ⊢
    rw [← ih h, insertAll, List.foldl_cons, insert_of_not_mem hnot]
    rfl

theorem get?_insertAll_of_not_mem (fields : Fields) {entries : Fields} {key : String}
    (h : key ∉ entries.keys) : (fields.insertAll entries).get? key = fields.get? key := by
  induction entries generalizing fields with
  | nil => rfl
  | cons e rest ih =>
    rw [keys_cons, List.mem_cons, not_or] at h
    rw [insertAll, List.foldl_cons]
    exact (ih _ h.2).trans (get?_insert_of_ne fields e.2 h.1)

theorem ofEntries_of_nodup {entries : Fields} (h : entries.keys.Nodup) :
    ofEntries entries = entries :=
  insertAll_of_nodup h

end Fields

namespace Json

mutual

/-- No record in the value repeats a key. -/
def Keyed : Json → Prop
  | .arr items => KeyedItems items
  | .obj fields => KeyedFields fields
  | _ => True

/-- No record in the items repeats a key. -/
def KeyedItems : List Json → Prop
  | [] => True
  | v :: rest => v.Keyed ∧ KeyedItems rest

/-- No key is repeated among the fields or in a record in them. -/
def KeyedFields : List (String × Json) → Prop
  | [] => True
  | (k, v) :: rest => k ∉ Fields.keys rest ∧ v.Keyed ∧ KeyedFields rest

end

mutual

/-- Whether a record in the value repeats a key. -/
def decKeyed : (v : Json) → Decidable v.Keyed
  | .arr items => decKeyedItems items
  | .obj fields => decKeyedFields fields
  | .null | .bool _ | .num _ | .str _ => .isTrue trivial

/-- Whether a record in the items repeats a key. -/
def decKeyedItems : (items : List Json) → Decidable (KeyedItems items)
  | [] => .isTrue trivial
  | v :: rest => @instDecidableAnd _ _ (decKeyed v) (decKeyedItems rest)

/-- Whether a key is repeated among the fields or in a record in them. -/
def decKeyedFields : (fields : List (String × Json)) → Decidable (KeyedFields fields)
  | [] => .isTrue trivial
  | (k, v) :: rest => @instDecidableAnd (k ∉ Fields.keys rest) _ inferInstance
      (@instDecidableAnd _ _ (decKeyed v) (decKeyedFields rest))

end

instance (items : List Json) : Decidable (KeyedItems items) := decKeyedItems items

instance (fields : Fields) : Decidable (KeyedFields fields) := decKeyedFields fields

theorem keyedItems_iff {items : List Json} : KeyedItems items ↔ ∀ v ∈ items, v.Keyed := by
  induction items with
  | nil => simp [KeyedItems]
  | cons v rest ih => rw [KeyedItems, ih, List.forall_mem_cons]

theorem keyedFields_iff {fields : Fields} :
    KeyedFields fields ↔ fields.keys.Nodup ∧ ∀ e ∈ fields, e.2.Keyed := by
  induction fields with
  | nil => simp [KeyedFields, Fields.keys]
  | cons e rest ih =>
    rw [KeyedFields, ih, List.forall_mem_cons, Fields.keys_cons, List.nodup_cons]
    exact ⟨fun h => ⟨⟨h.1, h.2.2.1⟩, h.2.1, h.2.2.2⟩, fun h => ⟨h.1.1, h.2.1, h.1.2, h.2.2⟩⟩

namespace KeyedFields

variable {fields : Fields}

theorem nodup (h : KeyedFields fields) : fields.keys.Nodup := (keyedFields_iff.1 h).1

theorem of_get? (h : KeyedFields fields) {key : String} {v : Json} (hv : fields.get? key = some v) :
    v.Keyed :=
  (keyedFields_iff.1 h).2 _ (Fields.mem_of_get? hv)

theorem of_nodup (hnd : fields.keys.Nodup)
    (h : ∀ key v, fields.get? key = some v → Json.Keyed v) : KeyedFields fields :=
  keyedFields_iff.2 ⟨hnd, fun e he => h e.1 e.2 (Fields.get?_of_mem hnd he)⟩

theorem insert (h : KeyedFields fields) (key : String) {v : Json} (hv : v.Keyed) :
    KeyedFields (fields.insert key v) := by
  induction fields with
  | nil => exact ⟨List.not_mem_nil, hv, trivial⟩
  | cons e rest ih =>
    obtain ⟨k, w⟩ := e
    obtain ⟨hnot, hw, hrest⟩ := h
    by_cases hk : k = key
    · simp only [Fields.insert, hk, if_true]
      exact ⟨hk ▸ hnot, hv, hrest⟩
    · simp only [Fields.insert, hk, if_false]
      refine ⟨?_, hw, ih hrest⟩
      rw [Fields.mem_keys_insert, not_or]
      exact ⟨hk, hnot⟩

/-- Entries that are put in one after the other never repeat a key. -/
theorem insertAll (h : KeyedFields fields) {entries : Fields} (hv : ∀ e ∈ entries, e.2.Keyed) :
    KeyedFields (fields.insertAll entries) :=
  List.foldlRecOn entries _ h fun _ hfields e he => hfields.insert e.1 (hv e he)

theorem erase (h : KeyedFields fields) (key : String) : KeyedFields (fields.erase key) := by
  rw [keyedFields_iff] at h ⊢
  exact ⟨Fields.keys_erase fields key ▸ h.1.erase key,
    fun e he => h.2 e (Fields.mem_of_mem_erase he)⟩

end KeyedFields

/-! ### Merged records -/

mutual

/-- A merged value repeats no key. -/
theorem keyed_merged : (v : Json) → v.merged.Keyed
  | .null | .bool _ | .num _ | .str _ => trivial
  | .arr items => keyed_mergedItems items
  | .obj fields => keyed_mergedFields [] fields trivial

theorem keyed_mergedItems : (items : List Json) → KeyedItems (mergedItems items)
  | [] => trivial
  | v :: rest => ⟨keyed_merged v, keyed_mergedItems rest⟩

theorem keyed_mergedFields : (acc : Fields) → (fields : Fields) → KeyedFields acc →
    KeyedFields (mergedFields acc fields)
  | _, [], h => h
  | _, (k, v) :: rest, h => keyed_mergedFields _ rest (h.insert k (keyed_merged v))

end

theorem mergedItems_eq_map (items : List Json) : mergedItems items = items.map merged := by
  induction items with
  | nil => rfl
  | cons v rest ih => rw [mergedItems, ih, List.map_cons]

theorem mergedFields_append (acc : Fields) (first rest : List (String × Json)) :
    mergedFields acc (first ++ rest) = mergedFields (mergedFields acc first) rest := by
  induction first generalizing acc with
  | nil => rfl
  | cons e first ih =>
    obtain ⟨key, v⟩ := e
    exact ih (acc.insert key v.merged)

/-- A key that is not added keeps its value. -/
theorem get?_mergedFields_of_not_mem (acc : Fields) {fields : Fields} {key : String}
    (h : key ∉ fields.keys) : Fields.get? (mergedFields acc fields) key = acc.get? key := by
  induction fields generalizing acc with
  | nil => rfl
  | cons e rest ih =>
    rw [Fields.keys_cons, List.mem_cons, not_or] at h
    exact (ih _ h.2).trans (Fields.get?_insert_of_ne acc e.2.merged h.1)

mutual

theorem merged_of_keyed : {v : Json} → v.Keyed → v.merged = v
  | .null, _ | .bool _, _ | .num _, _ | .str _, _ => rfl
  | .arr _, h => congrArg arr (mergedItems_of_keyed h)
  | .obj _, h => congrArg obj (mergedFields_of_keyed [] h (by simp [Fields.keys]))

theorem mergedItems_of_keyed : {items : List Json} → KeyedItems items → mergedItems items = items
  | [], _ => rfl
  | _ :: _, h => by rw [mergedItems, merged_of_keyed h.1, mergedItems_of_keyed h.2]

theorem mergedFields_of_keyed : (acc : Fields) → {fields : Fields} → KeyedFields fields →
    (∀ k ∈ Fields.keys fields, k ∉ acc.keys) → mergedFields acc fields = acc ++ fields
  | _, [], _, _ => by rw [mergedFields, List.append_nil]
  | acc, (k, v) :: rest, h, hacc => by
    rw [Fields.keys_cons, List.forall_mem_cons] at hacc
    rw [mergedFields, merged_of_keyed h.2.1, Fields.insert_of_not_mem hacc.1,
      mergedFields_of_keyed _ h.2.2, List.append_assoc, List.singleton_append]
    intro key hkey
    rw [Fields.keys, List.map_append, List.mem_append, not_or]
    refine ⟨hacc.2 key hkey, ?_⟩
    rintro hmem
    obtain rfl : key = k := by simpa using hmem
    exact h.1 hkey

end

end Json

end Workflow
