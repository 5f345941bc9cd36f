import Workflow.Proofs.Document.Entries
import Workflow.Proofs.Import.Layout
import Workflow.Proofs.NodeType.Slots

/-!
# Error handlers as fields

The fields of an error-catch node are the list of its error handlers. The names among them are the
transitions of the handlers, each behind the port of its position.
-/

namespace Workflow

/-- The name in an error handler is its transition. -/
theorem CatchEntry.entryName?_toJson {h : CatchEntry} (hw : h.WellFormed) :
    TransitionSlot.entryName? h.toJson = h.transition := by
  have hnone : h.extra.get? "transition" = none :=
    Fields.get?_eq_none_iff.2 fun hmem => hw.2 _ hmem (by decide)
  have hne : ("error" = "transition") = False := by decide
  simp only [TransitionSlot.entryName?, toJson, Json.obj?, entries, TransitionSlot.transitionKey]
  cases h.transition <;> simp [optionalText, Fields.get?, hne, hnone, Json.str?]

theorem CatchEntry.WellFormed.transition_not_mem {h : CatchEntry} (hw : h.WellFormed) :
    "transition" ∉ h.extra.keys := fun hmem => hw.2 _ hmem (by decide)

/-- It still is when the record is put together from its entries, unless another field takes the
place of the transition. -/
theorem CatchEntry.entryName?_merged {h : CatchEntry} (ht : "transition" ∉ h.extra.keys) :
    TransitionSlot.entryName? h.toJson.merged = h.transition := by
  have hget : Fields.get? (Json.mergedFields [] h.entries) "transition" =
      h.transition.map Json.str := by
    rw [entries, Json.mergedFields_append, Json.get?_mergedFields_of_not_mem _ ht]
    cases h.transition <;> rfl
  show (Fields.get? (Json.mergedFields [] h.entries) "transition").bind Json.str? = _
  rw [hget]
  cases h.transition <;> rfl

namespace Import

variable {hs : List CatchEntry}

theorem handlerFields_eq (hw : ∀ h ∈ hs, h.WellFormed) :
    handlerFields hs = [("catch", .arr (hs.map CatchEntry.toJson))] := by
  have hkeyed : (Json.arr (hs.map CatchEntry.toJson)).Keyed := by
    refine Json.keyedItems_iff.2 fun v hv => ?_
    obtain ⟨h, hmem, rfl⟩ := List.mem_map.1 hv
    exact CatchEntry.keyed_toJson (hw h hmem)
  rw [handlerFields, Json.merged_of_keyed hkeyed]

theorem entries_handlerFields (hw : ∀ h ∈ hs, h.WellFormed) :
    TransitionRule.handlers.entries (handlerFields hs) = hs.map CatchEntry.toJson := by
  rw [handlerFields_eq hw]
  rfl

theorem entries_handlerFields_merged (hs : List CatchEntry) :
    TransitionRule.handlers.entries (handlerFields hs) = hs.map fun h => h.toJson.merged := by
  show Json.mergedItems (hs.map CatchEntry.toJson) = _
  rw [Json.mergedItems_eq_map, List.map_map]
  rfl

theorem names_handlerFields (ht : ∀ h ∈ hs, "transition" ∉ h.extra.keys) :
    TransitionRule.handlers.names (handlerFields hs) = hs.map CatchEntry.transition := by
  rw [TransitionRule.names, entries_handlerFields_merged, List.map_map]
  exact List.map_congr_left fun h hmem => CatchEntry.entryName?_merged (ht h hmem)

/-- The port at a position behind which an error handler names a state. -/
theorem mem_targets_handlerFields (ht : ∀ h ∈ hs, "transition" ∉ h.extra.keys) {p : Port}
    {name : String} :
    (p, name) ∈ catchType.transitions.targets (handlerFields hs) ↔
      ∃ i h, hs[i]? = some h ∧ h.transition = some name ∧ p.toNat = i + 1 := by
  have hports : (TransitionRule.handlers.portsFor (handlerFields hs)).toNat
      = min hs.length PortCount.greatest := by
    rw [TransitionRule.toNat_portsFor, entries_handlerFields_merged, List.length_map]
    simp [TransitionRule.fixed]
  show (p, name) ∈ TransitionRule.handlers.targets (handlerFields hs) ↔ _
  rw [TransitionRule.targets_eq_filterMap_names, hports, names_handlerFields ht]
  simp only [List.mem_filterMap, List.mem_range, List.getElem?_map, Option.map_eq_some_iff,
    PortCount.greatest, Prod.mk.injEq]
  constructor
  · rintro ⟨i, hi, text, htext, hp, rfl⟩
    cases hh : hs[i]? with
    | none => simp [hh] at htext
    | some h =>
      refine ⟨i, h, hh, by simpa [hh] using htext, ?_⟩
      rw [← hp, UInt16.toNat_ofNat', Nat.mod_eq_of_lt (by omega)]
  · rintro ⟨i, h, hh, hname, hp⟩
    have hlt := p.toNat_lt
    have hlen := (List.getElem?_eq_some_iff.1 hh).1
    refine ⟨i, by omega, name, by rw [hh]; exact hname, ?_, rfl⟩
    rw [← hp, UInt16.ofNat_toNat]

end Import

end Workflow
