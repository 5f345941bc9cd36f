import Workflow.Proofs.Json.Keyed
import Workflow.Proofs.Lists

/-!
# Equality aside from the order of keys

`Json.Alike` compares two values as JSON does: records are alike when they have the same keys and
alike values under them, in whatever order (`alike_obj_iff`).
-/

namespace Workflow.Json

mutual

/-- The values are equal, aside from the order of the keys of records, which repeat none. -/
def Alike : Json → Json → Prop
  | .null, w => w = .null
  | .bool b, w => w = .bool b
  | .num n, w => w = .num n
  | .str s, w => w = .str s
  | .arr xs, w =>
    match w with
    | .arr ys => AlikeItems xs ys
    | _ => False
  | .obj xs, w =>
    match w with
    | .obj ys => (Fields.keys xs).Nodup ∧ (∀ key ∈ Fields.keys ys, key ∈ Fields.keys xs) ∧
      AlikeEntries xs ys
    | _ => False

/-- Two lists have alike items. -/
def AlikeItems : List Json → List Json → Prop
  | [], ys => ys = []
  | x :: xs, ys =>
    match ys with
    | y :: ys => Alike x y ∧ AlikeItems xs ys
    | [] => False

/-- Each field has an alike value under its key in `others`. -/
def AlikeEntries : List (String × Json) → (others : List (String × Json)) → Prop
  | [], _ => True
  | (k, v) :: rest, others =>
    (∃ w, Fields.get? others k = some w ∧ Alike v w) ∧ AlikeEntries rest others

end

/-- Two possible values are alike. -/
def AlikeOption : Option Json → Option Json → Prop
  | some v, some w => Alike v w
  | none, none => True
  | _, _ => False

/-- Two records have alike values under every key. -/
def AlikeFields (xs ys : Fields) : Prop := ∀ key, AlikeOption (xs.get? key) (ys.get? key)

theorem alikeItems_iff {xs ys : List Json} : AlikeItems xs ys ↔ List.Forall₂ Alike xs ys := by
  induction xs generalizing ys with
  | nil =>
    rw [List.forall₂_nil_left_iff, AlikeItems]
  | cons x xs ih =>
    cases ys with
    | nil => simp [AlikeItems]
    | cons y ys => rw [List.forall₂_cons, ← ih, AlikeItems]

theorem alikeEntries_iff {xs ys : Fields} :
    AlikeEntries xs ys ↔ ∀ e ∈ xs, ∃ w, ys.get? e.1 = some w ∧ Alike e.2 w := by
  induction xs with
  | nil => simp [AlikeEntries]
  | cons e rest ih => rw [AlikeEntries, ih, List.forall_mem_cons]

/-- A record that repeats no key is alike another one with alike values under every key. -/
theorem alike_obj_iff {xs ys : Fields} (hxs : xs.keys.Nodup) :
    Alike (.obj xs) (.obj ys) ↔ AlikeFields xs ys := by
  rw [Alike, alikeEntries_iff]
  constructor
  · rintro ⟨-, hkeys, hentries⟩ key
    cases hx : xs.get? key with
    | some v =>
      obtain ⟨w, hw, hvw⟩ := hentries _ (Fields.mem_of_get? hx)
      rw [hw]
      exact hvw
    | none =>
      cases hy : ys.get? key with
      | none => trivial
      | some w =>
        have hmem : key ∈ ys.keys := List.mem_map_of_mem (Fields.mem_of_get? hy)
        exact absurd (hkeys key hmem) (Fields.get?_eq_none_iff.1 hx)
  · intro h
    refine ⟨hxs, fun key hkey => ?_, fun e he => ?_⟩
    · by_contra hnot
      have hkeyed := h key
      rw [Fields.get?_eq_none_iff.2 hnot] at hkeyed
      cases hy : ys.get? key with
      | none => exact Fields.get?_eq_none_iff.1 hy hkey
      | some w =>
        rw [hy] at hkeyed
        exact hkeyed
    · have hkeyed := h e.1
      rw [Fields.get?_of_mem hxs he] at hkeyed
      cases hy : ys.get? e.1 with
      | none =>
        rw [hy] at hkeyed
        exact hkeyed.elim
      | some w =>
        rw [hy] at hkeyed
        exact ⟨w, rfl, hkeyed⟩

mutual

theorem alike_refl : {v : Json} → v.Keyed → Alike v v
  | .null, _ | .bool _, _ | .num _, _ | .str _, _ => rfl
  | .arr _, h => alikeItems_refl h
  | .obj fields, h => by
    rw [Alike]
    exact ⟨h.nodup, fun _ hkey => hkey,
      alikeEntries_refl h fun e he => Fields.get?_of_mem h.nodup he⟩

theorem alikeItems_refl : {items : List Json} → KeyedItems items → AlikeItems items items
  | [], _ => rfl
  | _ :: _, h => ⟨alike_refl h.1, alikeItems_refl h.2⟩

theorem alikeEntries_refl : {fields others : List (String × Json)} → KeyedFields fields →
    (∀ e ∈ fields, Fields.get? others e.1 = some e.2) → AlikeEntries fields others
  | [], _, _, _ => trivial
  | (_, v) :: _, _, h, hget =>
    ⟨⟨v, hget _ List.mem_cons_self, alike_refl h.2.1⟩,
      alikeEntries_refl h.2.2 fun e he => hget e (List.mem_cons_of_mem _ he)⟩

end

theorem alikeOption_refl {v? : Option Json} (h : ∀ v, v? = some v → v.Keyed) :
    AlikeOption v? v? := by
  cases v? with
  | none => trivial
  | some v => exact alike_refl (h v rfl)

end Workflow.Json
