import Workflow.Document.Basic
import Workflow.Proofs.Except

/-!
# What one field of a record adds

The records of a document are read field by field. A field that has a meaning may occur once and fills
its slot; every other field is kept aside. Each `step_eq_ok_iff` says this of one kind of record, so
that what is kept while a record is read is shown without the reader.
-/

namespace Workflow

variable {σ : Type} [Source σ] {whole part : σ} {key : String}

namespace Record

variable {α β : Type} {slot slot' : Option α} {read : Except Complaint α}

theorem once_eq_ok_iff :
    once whole key slot read = .ok slot' ↔ slot = none ∧ ∃ v, read = .ok v ∧ slot' = some v := by
  cases slot with
  | none =>
    simp only [once, Option.isSome_none, Bool.false_eq_true, if_false, Except.map_eq_ok_iff,
      true_and, eq_comm (a := slot')]
  | some v => simp [once, throw, throwThe, MonadExceptOf.throw]

/-- A field that may occur once fills its slot. -/
theorem fill_eq_ok_iff {fill : Option α → β} {b : β} :
    fill <$> once whole key slot read = .ok b ↔
      slot = none ∧ ∃ v, read = .ok v ∧ b = fill (some v) := by
  rw [Except.map_eq_ok_iff]
  simp only [once_eq_ok_iff]
  constructor
  · rintro ⟨_, ⟨hslot, v, hread, rfl⟩, rfl⟩
    exact ⟨hslot, v, hread, rfl⟩
  · rintro ⟨hslot, v, hread, rfl⟩
    exact ⟨_, ⟨hslot, v, hread, rfl⟩, rfl⟩

end Record

theorem CatchEntry.step_eq_ok_iff {p p' : Partial} :
    Partial.step whole p key part = .ok p' ↔
      (key = "error" ∧ p.error = none ∧
        ∃ error, Source.string part = .ok error ∧ p' = { p with error := some error }) ∨
      (key = "transition" ∧ p.transition = none ∧
        ∃ name?, Record.optional Source.string part = .ok name? ∧
          p' = { p with transition := some name? }) ∨
      (key ∉ ["error", "transition"] ∧
        ∃ held, p.held.add key part = .ok held ∧ p' = { p with held }) := by
  unfold Partial.step
  split
  next hkey => simp [hkey, Record.fill_eq_ok_iff]
  split
  next hkey => simp [hkey, Record.fill_eq_ok_iff]
  next h1 h2 => simp [h1, h2, Except.map_eq_ok_iff, eq_comm (a := p')]

theorem State.step_eq_ok_iff {p p' : Partial} :
    Partial.step whole p key part = .ok p' ↔
      (key = "id" ∧ p.id = none ∧
        ∃ id, Source.string part = .ok id ∧ p' = { p with id := some id }) ∨
      (key = "type" ∧ p.kind = none ∧
        ∃ kind, Source.string part = .ok kind ∧ p' = { p with kind := some kind }) ∨
      (key = "catch" ∧ p.handlers = none ∧
        ∃ hs, Record.optional (Record.list CatchEntry.read) part = .ok hs ∧
          p' = { p with handlers := some hs }) ∨
      (key ∉ ["id", "type", "catch"] ∧
        ∃ held, p.held.add key part = .ok held ∧ p' = { p with held }) := by
  unfold Partial.step
  split
  next hkey => simp [hkey, Record.fill_eq_ok_iff]
  split
  next hkey => simp [hkey, Record.fill_eq_ok_iff]
  split
  next hkey => simp [hkey, Record.fill_eq_ok_iff]
  next h1 h2 h3 =>
    simp [h1, h2, h3, Except.map_eq_ok_iff, eq_comm (a := p')]

theorem Start.step_eq_ok_iff {p p' : Partial} :
    Partial.step whole p key part = .ok p' ↔
      (key = "type" ∧ p.kind = none ∧
        ∃ kind?, Record.optional readKind part = .ok kind? ∧ p' = { p with kind := some kind? }) ∨
      (key = "state" ∧ p.state = none ∧
        ∃ id?, Record.optional Source.string part = .ok id? ∧ p' = { p with state := some id? }) ∨
      (key ∉ ["type", "state"] ∧
        ∃ held, p.held.add key part = .ok held ∧ p' = { p with held }) := by
  unfold Partial.step
  split
  next hkey => simp [hkey, Record.fill_eq_ok_iff]
  split
  next hkey => simp [hkey, Record.fill_eq_ok_iff]
  next h1 h2 => simp [h1, h2, Except.map_eq_ok_iff, eq_comm (a := p')]

theorem Document.step_eq_ok_iff {p p' : Partial} :
    Partial.step whole p key part = .ok p' ↔
      (key = "functions" ∧ p.functions = none ∧
        ∃ fs, Record.optional (Record.list Source.json) part = .ok fs ∧
          p' = { p with functions := some fs }) ∨
      (key = "start" ∧ p.start = none ∧
        ∃ s, Record.optional Start.read part = .ok s ∧ p' = { p with start := some s }) ∨
      (key = "states" ∧ p.states = none ∧
        ∃ ss, Record.list State.read part = .ok ss ∧ p' = { p with states := some ss }) ∨
      (key ∉ ["functions", "start", "states"] ∧
        ∃ held, p.held.add key part = .ok held ∧ p' = { p with held }) := by
  unfold Partial.step
  split
  next hkey => simp [hkey, Record.fill_eq_ok_iff]
  split
  next hkey => simp [hkey, Record.fill_eq_ok_iff]
  split
  next hkey => simp [hkey, Record.fill_eq_ok_iff]
  next h1 h2 h3 =>
    simp [h1, h2, h3, Except.map_eq_ok_iff, eq_comm (a := p')]

end Workflow
