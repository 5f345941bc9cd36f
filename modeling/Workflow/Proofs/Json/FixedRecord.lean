import Workflow.Json.FixedRecord
import Workflow.Proofs.Json.Depth
import Workflow.Proofs.Json.Tree

/-!
# Fixed records

A fixed record that is written as an object with fields of its own only is read field by field
(`FixedRecord.read_part`). In the other direction, whatever form a fixed record was read from, its
fields were read one by one from parts that are less deep than the record
(`FixedRecord.read_induction`).
-/

namespace Workflow.Json

variable {π α : Type} {inText : Bool}

namespace FixedRecord

variable {d : FixedRecord} {step : π → String → Part → Except Complaint π} {empty : π}
  {finish : (missing : String → Complaint) → π → Except Complaint α}

/-- An object that has fields of the record only is read field by field. -/
theorem read_part {fields : Fields} (hnames : fields.keys ⊆ d.names) :
    d.read step empty finish ((obj fields).part inText)
      = fields.foldlM (fun acc e => step acc e.1 (e.2.part inText)) empty
        >>= finish fun name => fault (.missingField name) := by
  rw [read, part, Raw.ofJson, ofFields_eq_map]
  simp only [List.map_map, readObject, List.foldlM_map, Function.comp_apply]
  rw [List.foldlM_congr fun acc e he => if_pos (hnames (List.mem_map_of_mem he))]

/-- The fields of a record are one level less deep than the record, so what each step keeps for parts
of this depth holds of what the value is made from. -/
theorem read_induction {P : Nat → π → Prop} {p : Part} {v : α}
    (h : d.read step empty finish p = .ok v) (hempty : ∀ n, P n empty)
    (hstep : ∀ n acc key q acc', q.raw.depth ≤ n → P n acc → step acc key q = .ok acc' →
      P n acc') :
    ∃ n acc missing, p.raw.depth = n + 1 ∧ P n acc ∧ finish missing acc = .ok v := by
  unfold read at h
  split at h
  next fields ending hraw =>
    obtain ⟨acc, hacc, h⟩ := Except.bind_eq_ok_iff.1 h
    refine ⟨Raw.depthFields fields, acc, fun name => fault (.missingField name),
      by rw [hraw, Raw.depth, Nat.add_comm], ?_, ?_⟩
    · refine Except.foldlM_induction ?_ (hempty _) hacc
      intro acc e he acc' hP hs
      obtain ⟨f, hf, rfl⟩ := List.mem_map.1 he
      dsimp only at hs
      split at hs
      · exact hstep _ acc f.1 _ acc' (Raw.depth_le_depthFields hf) hP hs
      · split at hs
        · exact Except.ok.inj hs ▸ hP
        · cases hs
    · split at h
      · exact h
      all_goals cases h
  next items ending hraw =>
    obtain ⟨acc, hacc, h⟩ := Except.bind_eq_ok_iff.1 h
    have hfinish : finish (fun name => fault (.invalidLength (d.names.idxOf name) d.listTitle)) acc
        = .ok v := by
      split at h
      · cases h
      · obtain ⟨w, hw, h⟩ := Except.bind_eq_ok_iff.1 h
        split at h
        · cases h
        · split at h
          · cases h
          · exact Except.ok.inj h ▸ hw
    refine ⟨Raw.depthItems items, acc, _, by rw [hraw, Raw.depth, Nat.add_comm], ?_, hfinish⟩
    refine Except.foldlM_induction ?_ (hempty _) hacc
    intro acc e he acc' hP hs
    obtain ⟨r, hr, heq⟩ := List.mem_map.1 (List.of_mem_zip he).2
    exact hstep _ acc e.1 e.2 acc' (heq ▸ Raw.depth_le_depthItems hr) hP hs
  next => cases h

theorem need_eq_ok {missing : String → Complaint} {name : String} {slot : Option α} {v : α}
    (h : need missing name slot = .ok v) : slot = some v := by
  cases slot with
  | none => cases h
  | some w => exact congrArg some (Except.ok.inj h)

end FixedRecord

namespace Part

theorem fields_part (inText : Bool) {fields : Fields} (h : KeyedFields fields) :
    ((obj fields).part inText).fields = .ok fields := by
  show fieldsOf <$> ((obj fields).part inText).toJson = _
  rw [toJson_part (v := .obj fields) h]
  rfl

/-- What is read as a record of any fields repeats no key and is no deeper than what it is read
from. -/
theorem fields_eq_ok {p : Part} {fields : Fields} (h : p.fields = .ok fields) :
    KeyedFields fields ∧ (obj fields).depth ≤ p.raw.depth := by
  unfold Part.fields at h
  split at h
  next raws ending hraw =>
    obtain ⟨v, hv, rfl⟩ := Except.map_eq_ok_iff.1 h
    have hobj : ∃ fs, v = .obj fs := by
      unfold toJson at hv
      split at hv
      next w hw =>
        obtain rfl := Except.pure_eq_ok_iff.1 hv
        rw [hraw] at hw
        cases ending with
        | closed =>
          obtain ⟨fs, -, rfl⟩ := Option.map_eq_some_iff.1 hw
          exact ⟨fs, rfl⟩
        | broken => cases hw
        | unnamed => cases hw
      next => exact absurd hv Except.throw_ne_ok
    obtain ⟨fs, rfl⟩ := hobj
    exact ⟨toJson_keyed hv, depth_toJson hv⟩
  next => cases h

end Part

end Workflow.Json
