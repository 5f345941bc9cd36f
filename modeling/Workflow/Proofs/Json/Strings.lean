import Workflow.Proofs.Json.Keyed

/-!
# The texts in a value

The strings of a value (`Json.strings`), its keys (`Json.keys`) and its numbers (`Json.numbers`), all
from front to back, and the value with its strings changed (`Json.mapStrings`). Merging the records of a value adds no text
(`gather_merged_subset`), and a record with another value under one of its keys has the texts of that
value in their place (`Fields.exists_around`).
-/

namespace Workflow

namespace Json

section

variable {α : Type} (ofKey ofString : String → List α)

mutual

/-- What the keys and the strings of a value give, from front to back. -/
def gather : Json → List α
  | .str text => ofString text
  | .arr items => gatherItems items
  | .obj fields => gatherFields fields
  | _ => []

/-- What the items of an array give. -/
def gatherItems : List Json → List α
  | [] => []
  | v :: rest => gather v ++ gatherItems rest

/-- What the fields of a record give. -/
def gatherFields : List (String × Json) → List α
  | [] => []
  | (key, v) :: rest => ofKey key ++ gather v ++ gatherFields rest

end

variable {ofKey ofString}

theorem gatherFields_append (first rest : List (String × Json)) :
    gatherFields ofKey ofString (first ++ rest) =
      gatherFields ofKey ofString first ++ gatherFields ofKey ofString rest := by
  induction first with
  | nil => rfl
  | cons e first ih =>
    rw [List.cons_append, gatherFields, gatherFields, ih, List.append_assoc _ _ (gatherFields ..)]

theorem gatherFields_insert_subset (fields : Fields) (key : String) (v : Json) :
    gatherFields ofKey ofString (fields.insert key v) ⊆
      gatherFields ofKey ofString fields ++ (ofKey key ++ v.gather ofKey ofString) := by
  induction fields with
  | nil => simp [Fields.insert, gatherFields]
  | cons e rest ih =>
    rw [Fields.insert]
    split
    next h =>
      subst h
      rw [gatherFields, gatherFields]
      intro x hx
      simp only [List.mem_append] at hx ⊢
      tauto
    next =>
      rw [gatherFields, gatherFields]
      intro x hx
      have ih := @ih x
      simp only [List.mem_append] at hx ih ⊢
      tauto

mutual

theorem gather_merged_subset : (v : Json) →
    v.merged.gather ofKey ofString ⊆ v.gather ofKey ofString
  | .null | .bool _ | .num _ | .str _ => List.Subset.refl _
  | .arr items => by
    rw [merged, gather, gather]
    exact gatherItems_mergedItems_subset items
  | .obj fields => by
    rw [merged, gather, gather]
    exact gatherFields_mergedFields_subset [] fields

theorem gatherItems_mergedItems_subset : (items : List Json) →
    gatherItems ofKey ofString (mergedItems items) ⊆ gatherItems ofKey ofString items
  | [] => List.Subset.refl _
  | v :: rest => by
    rw [mergedItems, gatherItems, gatherItems]
    exact List.append_subset.2
      ⟨List.subset_append_of_subset_left _ (gather_merged_subset v),
        List.subset_append_of_subset_right _ (gatherItems_mergedItems_subset rest)⟩

theorem gatherFields_mergedFields_subset : (acc : Fields) → (fields : List (String × Json)) →
    gatherFields ofKey ofString (mergedFields acc fields) ⊆
      gatherFields ofKey ofString acc ++ gatherFields ofKey ofString fields
  | acc, [] => by
    rw [mergedFields]
    exact List.subset_append_left _ _
  | acc, (key, v) :: rest => by
    rw [mergedFields, gatherFields]
    intro x hx
    have hrest := gatherFields_mergedFields_subset (acc.insert key v.merged) rest hx
    have hinsert := @gatherFields_insert_subset _ ofKey ofString acc key v.merged x
    have hv := @gather_merged_subset v x
    simp only [List.mem_append] at hrest hinsert ⊢
    tauto

end

end

/-- The strings of a value, without its keys. -/
def strings (v : Json) : List String := v.gather (fun _ => []) ([·])

/-- The keys of all records in a value. -/
def keys (v : Json) : List String := v.gather ([·]) fun _ => []

theorem strings_around (front back : Fields) (key : String) (v : Json) :
    (obj (front ++ (key, v) :: back)).strings =
      (obj front).strings ++ (v.strings ++ (obj back).strings) := by
  rw [strings, gather, gatherFields_append]
  rfl

theorem keys_around (front back : Fields) (key : String) (v : Json) :
    (obj (front ++ (key, v) :: back)).keys =
      (obj front).keys ++ (key :: v.keys ++ (obj back).keys) := by
  rw [keys, gather, gatherFields_append]
  rfl

mutual

/-- The value with every string changed; the keys stay. -/
def mapStrings (σ : String → String) : Json → Json
  | .str text => .str (σ text)
  | .arr items => .arr (mapItemStrings σ items)
  | .obj fields => .obj (mapFieldStrings σ fields)
  | v => v

/-- The items of an array with their strings changed. -/
def mapItemStrings (σ : String → String) : List Json → List Json
  | [] => []
  | v :: rest => mapStrings σ v :: mapItemStrings σ rest

/-- The fields of a record with their strings changed. -/
def mapFieldStrings (σ : String → String) : List (String × Json) → List (String × Json)
  | [] => []
  | (key, v) :: rest => (key, mapStrings σ v) :: mapFieldStrings σ rest

end

section

variable {σ : String → String}

theorem mapFieldStrings_append (first rest : List (String × Json)) :
    mapFieldStrings σ (first ++ rest) = mapFieldStrings σ first ++ mapFieldStrings σ rest := by
  induction first with
  | nil => rfl
  | cons e first ih =>
    obtain ⟨key, v⟩ := e
    rw [List.cons_append, mapFieldStrings, mapFieldStrings, ih, List.cons_append]

mutual

theorem mapStrings_of_fixed : (v : Json) → (∀ text ∈ v.strings, σ text = text) →
    v.mapStrings σ = v
  | .null, _ | .bool _, _ | .num _, _ => rfl
  | .str text, h => congrArg str (h text (List.mem_singleton_self text))
  | .arr items, h => congrArg arr (mapItemStrings_of_fixed items h)
  | .obj fields, h => congrArg obj (mapFieldStrings_of_fixed fields h)

theorem mapItemStrings_of_fixed : (items : List Json) →
    (∀ text ∈ gatherItems (fun _ => []) ([·]) items, σ text = text) →
    mapItemStrings σ items = items
  | [], _ => rfl
  | v :: rest, h =>
    congrArg₂ List.cons (mapStrings_of_fixed v fun text ht => h text (List.mem_append_left _ ht))
      (mapItemStrings_of_fixed rest fun text ht => h text (List.mem_append_right _ ht))

theorem mapFieldStrings_of_fixed : (fields : List (String × Json)) →
    (∀ text ∈ gatherFields (fun _ => []) ([·]) fields, σ text = text) →
    mapFieldStrings σ fields = fields
  | [], _ => rfl
  | (key, v) :: rest, h =>
    congrArg₂ List.cons
      (congrArg (Prod.mk key) (mapStrings_of_fixed v fun text ht => h text (List.mem_append_left _ ht)))
      (mapFieldStrings_of_fixed rest fun text ht => h text (List.mem_append_right _ ht))

end

end

mutual

/-- The numbers in a value, from front to back. -/
def numbers : Json → List Number
  | .num n => [n]
  | .arr items => itemNumbers items
  | .obj fields => fieldNumbers fields
  | _ => []

/-- The numbers in the items of an array. -/
def itemNumbers : List Json → List Number
  | [] => []
  | v :: rest => numbers v ++ itemNumbers rest

/-- The numbers in the fields of a record. -/
def fieldNumbers : List (String × Json) → List Number
  | [] => []
  | (_, v) :: rest => numbers v ++ fieldNumbers rest

end

end Json

namespace Fields

/-- Setting the value under a key that is present changes that value and nothing around it. -/
theorem exists_around {fields : Fields} {key : String} {v : Json} (h : fields.get? key = some v) :
    ∃ front back, fields = front ++ (key, v) :: back ∧
      ∀ w, fields.insert key w = front ++ (key, w) :: back := by
  induction fields with
  | nil => cases h
  | cons e rest ih =>
    rw [get?] at h
    split at h
    next hkey =>
      subst hkey
      obtain rfl := Option.some.inj h
      exact ⟨[], rest, rfl, fun w => if_pos rfl⟩
    next hkey =>
      obtain ⟨front, back, rfl, hinsert⟩ := ih h
      refine ⟨e :: front, back, rfl, fun w => ?_⟩
      rw [insert, if_neg hkey, hinsert, List.cons_append]

end Fields

end Workflow
