import Workflow.Proofs.Graph.Stored
import Workflow.Proofs.Json.FixedRecord
import Workflow.Proofs.Json.Text
import Workflow.Proofs.NodeId
import Workflow.Snapshot.Reading
import Workflow.Snapshot.Writing

/-!
# Snapshots that are read back

An infinite coordinate is written as null, and null is no coordinate. So a snapshot is read back
exactly when all of its positions are finite (`Snapshot.ofJsonText_jsonText`); everything else that a
snapshot consists of has a text of its own. A coordinate is written with the digits of a 32-bit float
but read as a number of 64 bits, so each reader is applied to what the written numbers are read as
(`Json.reread`).
-/

namespace Workflow

open Json (Part)

variable {inText : Bool}

/-! ### Coordinates -/

namespace ExtendedFloat

/-- Whether the float is finite. -/
def isFinite : ExtendedFloat → Bool
  | finite _ => true
  | infinite _ | nan => false

/-- If the float is finite, its text as a coordinate is a numeral that is read as the float. -/
def ReadsBack : ExtendedFloat → Prop
  | finite x => (Number.single x).IsNumeral ∧
    ((Json.num (Number.single x).reread).part true).single = .ok (finite x)
  | infinite _ | nan => True

instance : (c : ExtendedFloat) → Decidable c.ReadsBack
  | finite _ => inferInstanceAs (Decidable (_ ∧ _))
  | infinite _ | nan => isTrue trivial

end ExtendedFloat

namespace Position

/-- Whether both coordinates are finite. -/
def isFinite (p : Position) : Bool := p.x.isFinite && p.y.isFinite

/-- The coordinates are read back from their texts. -/
def ReadsBack (p : Position) : Prop := p.x.ReadsBack ∧ p.y.ReadsBack

instance (p : Position) : Decidable p.ReadsBack := inferInstanceAs (Decidable (_ ∧ _))

/-- The complaint about null where a coordinate is expected. -/
def noCoordinate : Complaint := Json.fault (.invalidType .null "f32")

theorem spelled_coordinate {c : ExtendedFloat} (h : c.ReadsBack) : (coordinate c).Spelled := by
  cases c with
  | finite x => exact h.1
  | infinite => trivial
  | nan => trivial

theorem single_coordinate {c : ExtendedFloat} (h : c.ReadsBack) :
    ((coordinate c).reread.part inText).single
      = if c.isFinite then .ok c else .error noCoordinate := by
  cases c with
  | finite x => exact h.2
  | infinite => rfl
  | nan => rfl

theorem read_reread {p : Position} (h : p.ReadsBack) :
    read (p.toJson.reread.part inText) = if p.isFinite then .ok p else .error noCoordinate := by
  show record.read _ _ _ ((Json.obj [("x", (coordinate p.x).reread),
    ("y", (coordinate p.y).reread)]).part inText) = _
  rw [Json.FixedRecord.read_part (List.Subset.refl _)]
  simp only [List.foldlM_cons, List.foldlM_nil, Record.once, single_coordinate h.1,
    single_coordinate h.2, isFinite]
  by_cases hx : p.x.isFinite = true
  · by_cases hy : p.y.isFinite = true
    · simp only [hx, hy, Bool.and_true, if_true]
      rfl
    · simp only [hx, Bool.eq_false_iff.2 hy, Bool.and_false, if_true, Bool.false_eq_true, if_false]
      rfl
  · simp only [Bool.eq_false_iff.2 hx, Bool.false_and, Bool.false_eq_true, if_false]
    rfl

end Position

/-! ### Words and names -/

theorem legible_wordJson (n : UInt16) : (wordJson n).Legible := by
  have hlt := n.toNat_lt
  show (Number.int n.toNat).ReadsBack
  exact Number.readsBack_int (by omega) (by omega)

theorem word_wordJson (n : UInt16) : ((wordJson n).part inText).word = .ok n := by
  have hlt := n.toNat_lt
  simp only [Part.word, wordJson, Json.Raw.ofJson]
  rw [if_pos ⟨by omega, by omega⟩, Int.toNat_natCast, UInt16.ofNat_toNat]

theorem legible_words (ns : List UInt16) : (Json.arr (ns.map wordJson)).Legible :=
  Json.legibleItems_iff.2 (List.forall_mem_map.2 fun n _ => legible_wordJson n)

theorem NodeId.read_toJson (id : NodeId) : read (id.toJson.part inText) = .ok id := by
  refine Except.bind_eq_ok_iff.2 ⟨id.text, rfl, ?_⟩
  simp only [ofText?_text]
  rfl

theorem Family.read_name (f : Family) : read ((Json.str f.name).part inText) = .ok f := by
  cases f <;> rfl

/-! ### Fields that are left out -/

theorem join_map_some {α : Type} (x : Option α) : (x.map some).join = x := by
  cases x <;> rfl

theorem getD_unless_empty {α : Type} (l : List α) :
    (if l.isEmpty then none else some l).getD [] = l := by
  cases l <;> rfl

/-! ### Nodes -/

namespace Node

/-- The fields of a node but for its position. -/
def plainFields (n : Node) : Fields :=
  [("type", .str n.kind), ("family", .str n.family.name)] ++
  optionalText "business_id" n.stateId ++
  [("form_data", .obj n.form), ("initialized", .bool n.initialized),
    ("inputs", wordJson n.inputs), ("outputs", wordJson n.outputs)] ++
  (if n.fanOut.isEmpty then [] else [("fan_out", .arr (n.fanOut.map wordJson))])

theorem toJson_eq (n : Node) : n.toJson
    = .obj (n.plainFields ++ (n.position.map fun p => ("position", p.toJson)).toList) := rfl

/-- Whether the node has no position or a finite one. -/
def isFinite (n : Node) : Bool := n.position.all Position.isFinite

/-- What is known of a node when the plain fields have been read. -/
def Partial.plain (n : Node) : Partial where
  kind := some n.kind
  family := some n.family
  stateId := n.stateId.map some
  form := some n.form
  initialized := some n.initialized
  inputs := some n.inputs
  outputs := some n.outputs
  fanOut := if n.fanOut.isEmpty then none else some n.fanOut

theorem Partial.finish_plain (missing : String → Complaint) (n : Node) :
    finish missing { plain n with position := n.position.map some } = .ok n := by
  show Except.ok (Node.mk n.kind n.family (n.stateId.map some).join n.form n.initialized n.inputs
    n.outputs ((if n.fanOut.isEmpty then none else some n.fanOut).getD [])
    (n.position.map some).join) = _
  rw [join_map_some, join_map_some, getD_unless_empty]

theorem foldlM_plainFields (whole : Part) {n : Node} (hkeyed : Json.KeyedFields n.form) :
    n.plainFields.foldlM (fun acc e => Partial.step whole acc e.1 (e.2.part inText)) {}
      = .ok (.plain n) := by
  have hform := Json.Part.fields_part inText hkeyed
  have hwords : Record.list Part.word ((Json.arr (n.fanOut.map wordJson)).part inText)
      = .ok n.fanOut := Json.list_part_map fun m _ => word_wordJson m
  -- Which fields there are depends on the state id and the fan-out ports only.
  cases hid : n.stateId <;> cases hfan : n.fanOut.isEmpty <;>
    simp only [plainFields, Partial.plain, hid, hfan, optionalText, if_true, if_false,
      Bool.false_eq_true, List.cons_append, List.nil_append, List.append_nil, List.foldlM_cons,
      List.foldlM_nil, Partial.step, Record.once, Family.read_name, hform, word_wordJson, hwords]
  all_goals rfl

theorem keys_subset (n : Node) : Fields.keys
    (n.plainFields ++ (n.position.map fun p => ("position", p.toJson.reread)).toList)
      ⊆ record.names := by
  unfold plainFields
  cases n.stateId <;> cases n.fanOut.isEmpty <;> cases n.position <;>
    simp [Fields.keys, optionalText, record]

theorem legible_plainFields {n : Node} (h : (Json.obj n.form).Legible) :
    (Json.obj n.plainFields).Legible := by
  rw [Json.Legible, Json.legibleFields_iff, plainFields]
  refine List.forall_mem_append.2 ⟨List.forall_mem_append.2 ⟨List.forall_mem_append.2
    ⟨Json.legibleFields_iff.1 ⟨trivial, trivial, trivial⟩, ?_⟩, ?_⟩, ?_⟩
  · cases n.stateId with
    | none => exact List.forall_mem_nil _
    | some name => exact List.forall_mem_singleton.2 trivial
  · exact Json.legibleFields_iff.1
      ⟨h, trivial, legible_wordJson n.inputs, legible_wordJson n.outputs, trivial⟩
  · split
    · exact List.forall_mem_nil _
    · exact List.forall_mem_singleton.2 (legible_words n.fanOut)

theorem reread_toJson {n : Node} (h : (Json.obj n.form).Legible) : n.toJson.reread
    = .obj (n.plainFields ++ (n.position.map fun p => ("position", p.toJson.reread)).toList) := by
  have hplain := (Json.LegibleFields.rereads (legible_plainFields h)).2
  rw [toJson_eq, Json.reread, Json.rereadFields_eq_map, List.map_append,
    ← Json.rereadFields_eq_map n.plainFields, hplain]
  cases n.position <;> rfl

theorem foldlM_position (whole : Part) {n : Node} (h : ∀ p ∈ n.position, p.ReadsBack) :
    (n.position.map fun p => ("position", p.toJson.reread)).toList.foldlM
        (fun acc e => Partial.step whole acc e.1 (e.2.part inText)) (.plain n)
      = if n.isFinite then .ok { Partial.plain n with position := n.position.map some }
        else .error Position.noCoordinate := by
  unfold isFinite
  cases hposition : n.position with
  | none => rfl
  | some p =>
    have hread : Record.optional Position.read (p.toJson.reread.part inText)
        = some <$> Position.read (p.toJson.reread.part inText) := rfl
    simp only [Option.map_some, Option.toList_some, Option.all_some, List.foldlM_cons,
      List.foldlM_nil, Partial.step, hread, Position.read_reread (h p hposition)]
    by_cases hfinite : p.isFinite = true
    · simp only [hfinite, if_true]
      rfl
    · simp only [Bool.eq_false_iff.2 hfinite, Bool.false_eq_true, if_false]
      rfl

/-- What a node says in numbers is read back from the texts of the numbers. -/
structure Legible (n : Node) : Prop where
  form : (Json.obj n.form).Legible
  position : ∀ p ∈ n.position, p.ReadsBack

instance (n : Node) : Decidable n.Legible :=
  decidable_of_iff ((Json.obj n.form).Legible ∧ ∀ p ∈ n.position, p.ReadsBack)
    ⟨fun h => ⟨h.1, h.2⟩, fun h => ⟨h.form, h.position⟩⟩

theorem spelled_toJson {n : Node} (h : n.Legible) : n.toJson.Spelled := by
  have hplain := (Json.LegibleFields.rereads (legible_plainFields h.form)).1
  rw [toJson_eq, Json.Spelled, Json.spelledFields_iff]
  refine List.forall_mem_append.2 ⟨Json.spelledFields_iff.1 hplain, fun e he => ?_⟩
  obtain ⟨p, hp, rfl⟩ := Option.map_eq_some_iff.1 (Option.mem_toList.1 he)
  obtain ⟨hx, hy⟩ := h.position p hp
  exact ⟨Position.spelled_coordinate hx, Position.spelled_coordinate hy, trivial⟩

/-- A node is read back exactly when it has no infinite position. -/
theorem read_reread {n : Node} (hkeyed : Json.KeyedFields n.form) (h : n.Legible) :
    read (n.toJson.reread.part inText)
      = if n.isFinite then .ok n else .error Position.noCoordinate := by
  rw [reread_toJson h.form, read, Json.FixedRecord.read_part n.keys_subset, List.foldlM_append,
    foldlM_plainFields _ hkeyed]
  refine (congrArg (· >>= _) (foldlM_position _ h.position)).trans ?_
  split
  · exact Partial.finish_plain (fun name => Json.fault (.missingField name)) n
  · rfl

end Node

/-! ### Edges and document fields -/

theorem Edge.legible_toJson (e : Edge) : e.toJson.Legible :=
  ⟨trivial, legible_wordJson _, trivial, legible_wordJson _, trivial⟩

theorem Edge.read_toJson (e : Edge) : read (e.toJson.part inText) = .ok e := by
  rw [read, toJson, Json.FixedRecord.read_part (List.Subset.refl _)]
  simp only [List.foldlM_cons, List.foldlM_nil, Partial.step, Record.once, word_wordJson,
    NodeId.read_toJson]
  rfl

namespace Metadata

/-- The fields of the record that document fields are written as. -/
def entries (m : Metadata) : Fields :=
  (m.functions.map fun fs => ("functions", .arr fs)).toList ++
  (if m.extra.isEmpty then [] else [("extra", .obj m.extra)])

theorem toJson_eq (m : Metadata) : m.toJson = .obj m.entries := rfl

theorem keys_subset (m : Metadata) : m.entries.keys ⊆ record.names := by
  unfold entries
  cases m.functions <;> cases m.extra.isEmpty <;> simp [Fields.keys, record]

theorem foldlM_entries (whole : Part) {m : Metadata}
    (hfunctions : ∀ fs ∈ m.functions, Json.KeyedItems fs) (hextra : Json.KeyedFields m.extra) :
    m.entries.foldlM (fun acc e => Partial.step whole acc e.1 (e.2.part inText)) {}
      = .ok ⟨m.functions.map some, if m.extra.isEmpty then none else some m.extra⟩ := by
  have hfields := Json.Part.fields_part inText hextra
  unfold entries
  cases hfs : m.functions with
  | none =>
    cases hempty : m.extra.isEmpty <;>
      simp only [Option.map_none, Option.toList_none, if_true, if_false, Bool.false_eq_true,
        List.nil_append, List.foldlM_cons, List.foldlM_nil, Partial.step, Record.once, hfields]
    all_goals rfl
  | some fs =>
    have hread := Json.optional_part (v := .arr _) (by simp)
      (Json.list_json_part inText (hfunctions fs hfs))
    cases hempty : m.extra.isEmpty <;>
      simp only [Option.map_some, Option.toList_some, if_true, if_false, Bool.false_eq_true,
        List.cons_append, List.nil_append, List.foldlM_cons, List.foldlM_nil, Partial.step,
        Record.once, hfields, hread]
    all_goals rfl

theorem read_toJson (inText : Bool) {m : Metadata}
    (hfunctions : ∀ fs ∈ m.functions, Json.KeyedItems fs) (hextra : Json.KeyedFields m.extra) :
    read (m.toJson.part inText) = .ok m := by
  rw [toJson_eq, read, Json.FixedRecord.read_part m.keys_subset,
    foldlM_entries _ hfunctions hextra]
  show Except.ok (Metadata.mk (m.functions.map some).join
    ((if m.extra.isEmpty then none else some m.extra).getD [])) = _
  rw [join_map_some, getD_unless_empty]

end Metadata

/-! ### Snapshots -/

namespace NodeTable

/-- The nodes of a table as they are read. -/
theorem foldlM_read {es : List (NodeId × Node)} (hkeyed : ∀ e ∈ es, Json.KeyedFields e.2.form)
    (h : ∀ e ∈ es, e.2.Legible) (t : NodeTable) :
    es.foldlM (fun t e => do
        let id ← NodeId.read (e.1.toJson.part inText)
        return t.insert id (← Node.read (e.2.toJson.reread.part inText))) t
      = if es.all (·.2.isFinite) then .ok (es.foldl (fun t e => t.insert e.1 e.2) t)
        else .error Position.noCoordinate := by
  induction es generalizing t with
  | nil => rfl
  | cons e rest ih =>
    have ih := ih (fun f hf => hkeyed f (List.mem_cons_of_mem _ hf))
      fun f hf => h f (List.mem_cons_of_mem _ hf)
    rw [List.foldlM_cons, NodeId.read_toJson,
      Node.read_reread (hkeyed e List.mem_cons_self) (h e List.mem_cons_self), List.all_cons,
      List.foldl_cons]
    by_cases hfinite : e.2.isFinite = true
    · rw [if_pos hfinite, hfinite, Bool.true_and, ← ih]
      rfl
    · rw [if_neg hfinite, Bool.eq_false_iff.2 hfinite, Bool.false_and]
      rfl

theorem read_part (inText : Bool) (fields : List (NodeId × Json)) :
    read ((Json.obj (fields.map fun e => (e.1.text, e.2))).part inText)
      = fields.foldlM (fun t e => do
          let id ← NodeId.read (e.1.toJson.part inText)
          return t.insert id (← Node.read (e.2.part inText))) empty := by
  have hentries : ((Json.obj (fields.map fun e => (e.1.text, e.2))).part inText).entriesAs "a map"
      = .ok ⟨fields.map fun e => (.ok e.1.text, e.2.part inText), none⟩ := by
    rw [Json.part, Part.entriesAs, Json.Raw.ofJson, Json.ofFields_eq_map]
    simp only [List.map_map]
    rfl
  rw [read, hentries]
  refine (bind_pure (m := Except Complaint) _).trans ?_
  rw [List.foldlM_map]
  -- The key of a field is a string, so it is there before the identifier is read from it.
  exact List.foldlM_congr (fun t e _ => Except.ok_bind _ _) _

/-- A table of nodes is read back exactly when no node has an infinite position. -/
theorem read_reread (inText : Bool) {t : NodeTable}
    (hkeyed : ∀ e ∈ t.entries, Json.KeyedFields e.2.form) (h : ∀ e ∈ t.entries, e.2.Legible) :
    read ((Json.obj (t.entries.map fun e => (e.1.text, e.2.toJson.reread))).part inText)
      = if t.entries.all (·.2.isFinite) then .ok t else .error Position.noCoordinate := by
  have hpart := read_part inText (t.entries.map fun e => (e.1, e.2.toJson.reread))
  rw [List.map_map, List.foldlM_map] at hpart
  refine hpart.trans ((foldlM_read hkeyed h empty).trans ?_)
  rw [show t.entries.foldl (fun t e => t.insert e.1 e.2) empty = t from t.ofList_entries]

end NodeTable

namespace Snapshot

/-- Whether no node has an infinite position. -/
def isFinite (s : Snapshot) : Bool := s.nodes.entries.all (·.2.isFinite)

/-- No record that is kept as it is repeats a key. -/
structure Keyed (s : Snapshot) : Prop where
  forms : ∀ e ∈ s.nodes.entries, Json.KeyedFields e.2.form
  functions : ∀ fs ∈ s.metadata.functions, Json.KeyedItems fs
  extra : Json.KeyedFields s.metadata.extra

instance (s : Snapshot) : Decidable s.Keyed :=
  decidable_of_iff ((∀ e ∈ s.nodes.entries, Json.KeyedFields e.2.form) ∧
      (∀ fs ∈ s.metadata.functions, Json.KeyedItems fs) ∧ Json.KeyedFields s.metadata.extra)
    ⟨fun h => ⟨h.1, h.2.1, h.2.2⟩, fun h => ⟨h.forms, h.functions, h.extra⟩⟩

/-- What a snapshot says in numbers is read back from the texts of the numbers. -/
structure Legible (s : Snapshot) : Prop where
  nodes : ∀ e ∈ s.nodes.entries, e.2.Legible
  metadata : s.metadata.toJson.Legible

instance (s : Snapshot) : Decidable s.Legible :=
  decidable_of_iff ((∀ e ∈ s.nodes.entries, e.2.Legible) ∧ s.metadata.toJson.Legible)
    ⟨fun h => ⟨h.1, h.2⟩, fun h => ⟨h.nodes, h.metadata⟩⟩

variable {s : Snapshot}

theorem legible_edges (es : List Edge) : (Json.arr (es.map Edge.toJson)).Legible :=
  Json.legibleItems_iff.2 (List.forall_mem_map.2 fun e _ => e.legible_toJson)

theorem spelled_toJson (h : s.Legible) : s.toJson.Spelled := by
  refine ⟨?_, (legible_edges s.edges).rereads.1, h.metadata.rereads.1, trivial⟩
  rw [Json.Spelled, Json.spelledFields_iff, List.forall_mem_map]
  exact fun e he => Node.spelled_toJson (h.nodes e he)

theorem reread_toJson (h : s.Legible) : s.toJson.reread
    = .obj [("nodes", .obj (s.nodes.entries.map fun e => (e.1.text, e.2.toJson.reread))),
      ("edges", .arr (s.edges.map Edge.toJson)), ("metadata", s.metadata.toJson)] := by
  have hnodes : (Json.obj (s.nodes.entries.map fun e => (e.1.text, e.2.toJson))).reread
      = .obj (s.nodes.entries.map fun e => (e.1.text, e.2.toJson.reread)) := by
    rw [Json.reread, Json.rereadFields_eq_map, List.map_map]
    rfl
  rw [toJson, Json.reread, Json.rereadFields, Json.rereadFields, Json.rereadFields,
    Json.rereadFields, hnodes, (legible_edges s.edges).rereads.2, h.metadata.rereads.2]

theorem read_reread (hkeyed : s.Keyed) (h : s.Legible) : read (s.toJson.reread.part inText)
    = if s.isFinite then .ok s else .error Position.noCoordinate := by
  have hnodes := NodeTable.read_reread inText hkeyed.forms h.nodes
  have hedges : Record.list Edge.read ((Json.arr (s.edges.map Edge.toJson)).part inText)
      = .ok s.edges := Json.list_part_map fun e _ => e.read_toJson
  have hmetadata := Metadata.read_toJson inText hkeyed.functions hkeyed.extra
  rw [reread_toJson h, read, Json.FixedRecord.read_part (List.Subset.refl _)]
  simp only [List.foldlM_cons, List.foldlM_nil, Partial.step, Record.once, hnodes, hedges,
    hmetadata]
  by_cases hfinite : s.isFinite = true
  · have hall : s.nodes.entries.all (·.2.isFinite) = true := hfinite
    simp only [hfinite, hall, if_true]
    rfl
  · have hall : s.nodes.entries.all (·.2.isFinite) = false := Bool.eq_false_iff.2 hfinite
    simp only [Bool.eq_false_iff.2 hfinite, hall, Bool.false_eq_true, if_false]
    rfl

/-- The text of a snapshot gives the snapshot back when all positions are finite, and is refused
otherwise; the snapshot must not be nested too deep and its numbers must be read back. -/
theorem ofJsonText_jsonText (hkeyed : s.Keyed) (h : s.Legible)
    (hdepth : s.toJson.depth ≤ Json.depthLimit) :
    ofJsonText s.jsonText = if s.isFinite then .ok s else .error Position.noCoordinate := by
  rw [ofJsonText, jsonText, Json.readText_spelled _ (spelled_toJson h) hdepth]
  exact read_reread hkeyed h

end Snapshot

end Workflow
