import Workflow.Json.Source
import Workflow.Proofs.Except
import Workflow.Proofs.Json.Keyed

/-!
# Trees of values

A reader that is given the tree of a value (`Raw.ofJson`) meets the fields and items of the value in
their order. When no key is repeated, the tree is that of one value only (`toJson?_ofJson`).
-/

namespace Workflow.Json

mutual

theorem toJson?_ofJson : (v : Json) → v.Keyed → (Raw.ofJson v).toJson? = some v
  | .null, _ | .bool _, _ | .num _, _ | .str _, _ => rfl
  | .arr items, h => by rw [Raw.ofJson, Raw.toJson?, toItems?_ofItems items h, Option.map_some]
  | .obj fields, h => by
    have hnd : (Fields.keys ([] ++ fields)).Nodup := KeyedFields.nodup h
    rw [Raw.ofJson, Raw.toJson?, toFields?_ofFields [] fields h hnd, Option.map_some]
    rfl

theorem toItems?_ofItems : (items : List Json) → KeyedItems items →
    Raw.toItems? (Raw.ofItems items) = some items
  | [], _ => rfl
  | v :: rest, h => by
    rw [Raw.ofItems, Raw.toItems?, toJson?_ofJson v h.1, toItems?_ofItems rest h.2]
    rfl

theorem toFields?_ofFields : (acc fields : List (String × Json)) → KeyedFields fields →
    (Fields.keys (acc ++ fields)).Nodup →
    Raw.toFields? acc (Raw.ofFields fields) = some (acc ++ fields)
  | acc, [], _, _ => by rw [Raw.ofFields, Raw.toFields?, List.append_nil]
  | acc, (k, v) :: rest, h, hnd => by
    have hnot : k ∉ Fields.keys acc := by
      intro hmem
      rw [Fields.keys, List.map_append, List.nodup_append] at hnd
      exact hnd.2.2 k hmem k List.mem_cons_self rfl
    have hsplit : acc ++ (k, v) :: rest = (acc ++ [(k, v)]) ++ rest := by simp
    rw [Raw.ofFields, Raw.toFields?, toJson?_ofJson v h.2.1]
    rw [hsplit] at hnd ⊢
    rw [Option.bind_eq_bind, Option.bind_some, Fields.insert_of_not_mem hnot]
    exact toFields?_ofFields _ rest h.2.2 hnd

end

theorem ofItems_eq_map (items : List Json) : Raw.ofItems items = items.map Raw.ofJson := by
  induction items with
  | nil => rfl
  | cons v rest ih => rw [Raw.ofItems, ih, List.map_cons]

theorem ofFields_eq_map (fields : List (String × Json)) :
    Raw.ofFields fields = fields.map fun e => (e.1, Raw.ofJson e.2) := by
  induction fields with
  | nil => rfl
  | cons e rest ih => rw [Raw.ofFields, ih, List.map_cons]

/-- A value as a part of JSON data. -/
abbrev part (v : Json) (inText : Bool) : Part := ⟨.ofJson v, inText⟩

variable {inText : Bool}

theorem Part.toJson_part {v : Json} (h : v.Keyed) : (v.part inText).toJson = .ok v := by
  rw [Part.toJson, toJson?_ofJson v h]
  rfl

theorem entries_part (expected : String) (fields : List (String × Json)) :
    Source.entries expected ((Json.obj fields).part inText)
      = .ok ⟨fields.map fun e => (.ok e.1, e.2.part inText), none⟩ := by
  show Part.entriesAs expected _ = _
  rw [part, Part.entriesAs, Raw.ofJson, ofFields_eq_map]
  simp only [List.map_map]
  rfl

/-- A record is read field by field. -/
theorem fields_part {α : Type} (expected : String) (step : α → String → Part → Except Complaint α)
    (empty : α) (fields : List (String × Json)) :
    Record.fields expected step empty ((Json.obj fields).part inText)
      = fields.foldlM (fun acc e => step acc e.1 (e.2.part inText)) empty := by
  rw [Record.fields, entries_part]
  show ((fields.map fun (e : String × Json) => ((.ok e.1 : Except Complaint String),
    e.2.part inText)).foldlM (fun acc e => do step acc (← e.1) e.2) empty >>= pure) = _
  rw [List.foldlM_map, bind_pure]
  rfl

theorem items_part (items : List Json) : Source.items ((Json.arr items).part inText)
    = .ok ⟨items.map fun v => v.part inText, none⟩ := by
  show Part.itemsOf _ = _
  rw [part, Part.itemsOf, Raw.ofJson, ofItems_eq_map]
  simp only [List.map_map]
  rfl

/-- A list is read item by item. -/
theorem list_part {α : Type} (read : Part → Except Complaint α) (items : List Json) :
    Record.list read ((Json.arr items).part inText)
      = items.mapM fun v => read (v.part inText) := by
  rw [Record.list, items_part]
  show ((items.map fun v => v.part inText).mapM read >>= pure) = _
  rw [List.mapM_map, bind_pure]
  rfl

/-- A list whose items are read as given values. -/
theorem list_part_map {α : Type} {read : Part → Except Complaint α} {write : α → Json}
    {values : List α} (h : ∀ x ∈ values, read ((write x).part inText) = .ok x) :
    Record.list read ((Json.arr (values.map write)).part inText) = .ok values := by
  rw [list_part, Except.mapM_eq_ok_iff, List.forall₂_map_left_iff]
  exact List.forall₂_same.2 h

/-- A list of plain data. -/
theorem list_json_part (inText : Bool) {items : List Json} (h : KeyedItems items) :
    Record.list Source.json ((Json.arr items).part inText) = .ok items := by
  rw [list_part, Except.mapM_eq_ok_iff]
  exact List.forall₂_same.2 fun v hv => Part.toJson_part (keyedItems_iff.1 h v hv)

/-- A field that may be `null` is read as any other when it is not. -/
theorem optional_part {α : Type} {read : Part → Except Complaint α} {v : Json} {x : α}
    (hv : v ≠ .null) (h : read (v.part inText) = .ok x) :
    Record.optional read (v.part inText) = .ok (some x) := by
  have hread : Record.optional read (v.part inText) = some <$> read (v.part inText) := by
    cases v with
    | null => exact absurd rfl hv
    | _ => rfl
  rw [hread, h]
  rfl

end Workflow.Json
