import Workflow.Proofs.Json.Tree

/-!
# Data that holds a value

What a record is read from may be a JSON text or another one. `JsonSource.Holds` says that a part of
some data is a given value, however the data is written, and what that means for its readers: records
and lists of the value are read field by field and item by item (`Record.fields_eq_ok`,
`Record.list_eq_ok_of_holds`).
-/

namespace Workflow

/-- Data that can hold JSON values. -/
class JsonSource (σ : Type) [Source σ] where
  /-- A part that is a value. -/
  Holds : σ → Json → Prop
  string {p : σ} {s : String} : Holds p (.str s) → Source.string p = .ok s
  present? {p : σ} {v : Json} : Holds p v → v ≠ .null → Source.present? p = .ok (some p)
  items {p : σ} {vs : List Json} : Holds p (.arr vs) →
    ∃ ps, Source.items p = .ok ⟨ps, none⟩ ∧ List.Forall₂ Holds ps vs
  entries {p : σ} {es : List (String × Json)} (expected : String) : Holds p (.obj es) →
    ∃ ps, Source.entries expected p = .ok ⟨ps, none⟩ ∧
      List.Forall₂ (fun q e => q.1 = .ok e.1 ∧ Holds q.2 e.2) ps es
  json {p : σ} {v : Json} : Holds p v → v.Keyed → Source.json p = .ok v
  held {p : σ} {v : Json} : Holds p v → v.Keyed → Source.held p = .ok (.ok v)
  variant {p : σ} {s : String} {names : List String} : Holds p (.str s) → s ∈ names →
    Source.variant names p = .ok s

open JsonSource (Holds)

namespace Record

variable {σ α : Type} [Source σ] [JsonSource σ] {step : α → String → σ → Except Complaint α}
  {acc acc₁ acc' : α} {es es' : List (String × Json)}

/-- What the fields of a record add one after the other, whatever data they are in. -/
def Adds (step : α → String → σ → Except Complaint α) (acc : α) (es : List (String × Json))
    (acc' : α) : Prop :=
  ∀ ps : List (Except Complaint String × σ),
    List.Forall₂ (fun q e => q.1 = .ok e.1 ∧ Holds q.2 e.2) ps es →
    ps.foldlM (fun acc q => do step acc (← q.1) q.2) acc = .ok acc'

theorem Adds.nil : Adds step acc [] acc := by
  intro ps h
  cases h
  rfl

theorem Adds.cons {key : String} {v : Json} (h : ∀ p, Holds p v → step acc key p = .ok acc₁)
    (hes : Adds step acc₁ es acc') : Adds step acc ((key, v) :: es) acc' := by
  intro ps hps
  obtain ⟨⟨key?, p⟩, ps, ⟨rfl, hp⟩, hrest, rfl⟩ := List.forall₂_cons_right_iff.1 hps
  rw [List.foldlM_cons]
  exact Except.bind_eq_ok_iff.2 ⟨acc₁, h p hp, hes ps hrest⟩

theorem Adds.single {key : String} {v : Json} (h : ∀ p, Holds p v → step acc key p = .ok acc') :
    Adds step acc [(key, v)] acc' := .cons h .nil

/-- Further fields are added to what the ones in front of them left. -/
theorem Adds.append (acc₁ : α) (h : Adds step acc es acc₁) (h' : Adds step acc₁ es' acc') :
    Adds step acc (es ++ es') acc' := by
  intro ps hps
  rw [← List.take_append_drop es.length ps, List.foldlM_append]
  exact Except.bind_eq_ok_iff.2 ⟨acc₁, h _ (List.forall₂_take_append ps es es' hps),
    h' _ (List.forall₂_drop_append ps es es' hps)⟩

/-- A record is read field by field. -/
theorem fields_eq_ok {expected : String} {p : σ} (hp : Holds p (.obj es))
    (h : Adds step acc es acc') : fields expected step acc p = .ok acc' := by
  obtain ⟨ps, hps, hes⟩ := JsonSource.entries expected hp
  refine Except.bind_eq_ok_iff.2 ⟨_, hps, Except.bind_eq_ok_iff.2 ⟨acc', h ps hes, rfl⟩⟩

variable {read : σ → Except Complaint α} {p : σ}

/-- A list is read item by item. -/
theorem list_eq_ok_of_holds {write : α → Json} {xs : List α} (hp : Holds p (.arr (xs.map write)))
    (h : ∀ x ∈ xs, ∀ p, Holds p (write x) → read p = .ok x) : list read p = .ok xs := by
  obtain ⟨ps, hps, hxs⟩ := JsonSource.items hp
  refine Except.bind_eq_ok_iff.2 ⟨_, hps, Except.bind_eq_ok_iff.2 ⟨xs, ?_, rfl⟩⟩
  have hboth := (List.forall₂_and_left _ _).2 ⟨h, (List.forall₂_map_right_iff.1 hxs).flip⟩
  exact Except.mapM_eq_ok_iff.2 (hboth.imp fun x p h => h.1 p h.2).flip

/-- A field that may be `null` is read as any other when it is not. -/
theorem optional_eq_ok_of_holds {v : Json} {x : α} (hp : Holds p v) (hv : v ≠ .null)
    (h : read p = .ok x) : optional read p = .ok (some x) := by
  refine Except.bind_eq_ok_iff.2 ⟨_, JsonSource.present? hp hv, ?_⟩
  show some <$> read p = _
  rw [h]
  rfl

end Record

instance : JsonSource Json.Part where
  Holds p v := ∃ inText, p = v.part inText
  string := by
    rintro _ s ⟨inText, rfl⟩
    rfl
  present? := by
    rintro _ v ⟨inText, rfl⟩ hv
    cases v with
    | null => exact absurd rfl hv
    | _ => rfl
  items := by
    rintro _ vs ⟨inText, rfl⟩
    refine ⟨vs.map fun v => v.part inText, ?_, ?_⟩
    · rw [Json.items_part]
    · exact List.forall₂_map_left_iff.2 (List.forall₂_same.2 fun v _ => ⟨inText, rfl⟩)
  entries := by
    rintro _ es expected ⟨inText, rfl⟩
    refine ⟨es.map fun e => (.ok e.1, e.2.part inText), ?_, ?_⟩
    · rw [Json.entries_part]
    · exact List.forall₂_map_left_iff.2 (List.forall₂_same.2 fun e _ => ⟨rfl, inText, rfl⟩)
  json := by
    rintro _ v ⟨inText, rfl⟩ hv
    exact Json.Part.toJson_part hv
  held := by
    rintro _ v ⟨inText, rfl⟩ hv
    show Except.ok <$> (v.part inText).toJson = _
    rw [Json.Part.toJson_part hv]
    rfl
  variant := by
    rintro _ s names ⟨inText, rfl⟩ hs
    exact if_pos hs

theorem Json.holds_part (v : Json) (inText : Bool) : Holds (v.part inText) v := ⟨inText, rfl⟩

end Workflow
