import Workflow.Proofs.Document.Restored
import Workflow.Proofs.NodeType.Renamed

/-!
# Error handlers with other names

An error handler is read field by field, and the name in it is one of the fields. So a list of error
handlers in which the names were changed is read as the error handlers with the changed names
(`readHandlers_mapNames`), whatever other fields they have and in whatever order.
-/

theorem List.Forall₂.mapFirst {α β : Type} {R : α → β → Prop} {as : List α} {bs : List β}
    (h : List.Forall₂ R as bs) {f : α → α} {g : β → β} (hfg : ∀ a b, R a b → R (f a) (g b))
    (n : Nat) : List.Forall₂ R (as.mapFirst n f) (bs.mapFirst n g) := by
  induction h generalizing n with
  | nil => cases n <;> exact .nil
  | cons hab hrest ih =>
    cases n with
    | zero => exact .cons hab hrest
    | succ n => exact .cons (hfg _ _ hab) (ih n)

namespace Workflow

/-- The record of the fields kept aside is complained about elsewhere, but it is the same. -/
theorem Held.settle_elsewhere {σ : Type} [Source σ] {part : σ} {held : Held} {fields : Fields}
    (h : held.settle part = .ok fields) (part' : σ) : held.settle part' = .ok fields := by
  unfold settle at h ⊢
  generalize ([] : Fields) = acc at h ⊢
  induction held generalizing acc with
  | nil => exact h
  | cons e rest ih =>
    rw [List.foldlM_cons] at h ⊢
    obtain ⟨acc', hacc, h⟩ := Except.bind_eq_ok_iff.1 h
    refine Except.bind_eq_ok_iff.2 ⟨acc', ?_, ih _ h⟩
    split at hacc
    next => exact hacc
    next => exact absurd hacc Except.throw_ne_ok

namespace CatchEntry

/-- An error handler with another name. -/
def mapName (σ : String → String) (h : CatchEntry) : CatchEntry :=
  { h with transition := h.transition.map σ }

/-- Reads one field of an error handler at hand. -/
def Partial.next (whole : Json.Part) (p : Partial) (e : String × Json) : Except Complaint Partial :=
  Partial.step whole p e.1 (e.2.part false)

variable {fields : Fields} {p p' : Partial} {whole : Json.Part} {σ : String → String}

/-- Once a name was read, nothing else depends on it. -/
theorem next_named {e : String × Json} {name? : Option String} (hp : p.transition = some name?)
    (h : Partial.next whole p e = .ok p') : p'.transition = some name? ∧
      ∀ (whole' : Json.Part) (other? : Option String),
        Partial.next whole' { p with transition := some other? } e
          = .ok { p' with transition := some other? } := by
  rcases step_eq_ok_iff.1 h with ⟨hkey, hnone, error, hread, rfl⟩ | ⟨-, hnone, -⟩ |
    ⟨hkey, held, hheld, rfl⟩
  · exact ⟨hp, fun _ _ => step_eq_ok_iff.2 (.inl ⟨hkey, hnone, error, hread, rfl⟩)⟩
  · rw [hp] at hnone
    cases hnone
  · exact ⟨hp, fun _ _ => step_eq_ok_iff.2 (.inr (.inr ⟨hkey, held, hheld, rfl⟩))⟩

theorem foldlM_next_named {name? : Option String}
    (h : fields.foldlM (Partial.next whole) p = .ok p') (hp : p.transition = some name?) :
    p'.transition = some name? ∧ ∀ (whole' : Json.Part) (other? : Option String),
      fields.foldlM (Partial.next whole') { p with transition := some other? }
        = .ok { p' with transition := some other? } := by
  induction fields generalizing p with
  | nil =>
    cases h
    exact ⟨hp, fun _ _ => rfl⟩
  | cons e rest ih =>
    rw [List.foldlM_cons] at h
    obtain ⟨p₁, hnext, hrest⟩ := Except.bind_eq_ok_iff.1 h
    obtain ⟨hp₁, hother⟩ := next_named hp hnext
    obtain ⟨hp', hall⟩ := ih hrest hp₁
    refine ⟨hp', fun whole' other? => ?_⟩
    rw [List.foldlM_cons]
    exact Except.bind_eq_ok_iff.2 ⟨_, hother whole' other?, hall whole' other?⟩

/-- A name that may be absent is read as it was changed. -/
theorem optional_onText {v : Json} {name? : Option String}
    (h : Record.optional Source.string (v.part false) = .ok name?) :
    Record.optional Source.string ((v.onText σ).part false) = .ok (name?.map σ) := by
  cases v with
  | null | str text =>
    cases h
    rfl
  | _ => cases h

/-- Fields whose name was changed, read one after the other. -/
theorem foldlM_next_alter (h : fields.foldlM (Partial.next whole) p = .ok p')
    (hp : p.transition = none) (whole' : Json.Part) :
    (fields.alter (fun v => some (v.onText σ)) TransitionSlot.transitionKey).foldlM
        (Partial.next whole') p
      = .ok { p' with transition := p'.transition.map (Option.map σ) } := by
  induction fields generalizing p with
  | nil =>
    cases h
    have hsame : p'.transition.map (Option.map σ) = p'.transition := by rw [hp]; rfl
    rw [hsame]
    rfl
  | cons e rest ih =>
    obtain ⟨key, v⟩ := e
    rw [List.foldlM_cons] at h
    obtain ⟨p₁, hnext, hrest⟩ := Except.bind_eq_ok_iff.1 h
    rw [Fields.alter]
    rcases step_eq_ok_iff.1 hnext with ⟨rfl, hnone, error, hread, rfl⟩ |
      ⟨rfl, -, name?, hread, rfl⟩ | ⟨hkey, held, hheld, rfl⟩
    · rw [if_neg (by decide), List.foldlM_cons]
      exact Except.bind_eq_ok_iff.2 ⟨_, step_eq_ok_iff.2 (.inl ⟨rfl, hnone, error, hread, rfl⟩),
        ih hrest hp⟩
    · -- The name stands here; the fields behind it do not depend on it.
      obtain ⟨hp', hall⟩ := foldlM_next_named hrest rfl
      rw [if_pos (show "transition" = TransitionSlot.transitionKey from rfl), List.foldlM_cons, hp']
      exact Except.bind_eq_ok_iff.2 ⟨_, step_eq_ok_iff.2
        (.inr (.inl ⟨rfl, hp, _, optional_onText hread, rfl⟩)), hall whole' _⟩
    · have hne : key ≠ TransitionSlot.transitionKey := by
        rintro rfl
        exact hkey (List.mem_cons_of_mem _ List.mem_cons_self)
      rw [if_neg hne, List.foldlM_cons]
      exact Except.bind_eq_ok_iff.2 ⟨_, step_eq_ok_iff.2 (.inr (.inr ⟨hkey, held, hheld, rfl⟩)),
        ih hrest hp⟩

/-- An entry with another name is read as the error handler with that name. -/
theorem read_mapEntry {v : Json} {h : CatchEntry} (hr : read (v.part false) = .ok h) :
    read ((TransitionSlot.mapEntry σ v).part false) = .ok (h.mapName σ) := by
  unfold read at hr ⊢
  obtain ⟨p, hp, hr⟩ := Except.bind_eq_ok_iff.1 hr
  obtain ⟨error, herror, hr⟩ := Except.bind_eq_ok_iff.1 hr
  obtain ⟨extra, hextra, hr⟩ := Except.bind_eq_ok_iff.1 hr
  obtain rfl := Except.pure_eq_ok_iff.1 hr
  cases v with
  | obj fields =>
    rw [Json.fields_part] at hp
    refine Except.bind_eq_ok_iff.2 ⟨_, (Json.fields_part _ _ _ _).trans
      (foldlM_next_alter hp rfl _), Except.bind_eq_ok_iff.2 ⟨error, ?_, Except.bind_eq_ok_iff.2
        ⟨extra, Held.settle_elsewhere hextra _, ?_⟩⟩⟩
    · cases he : p.error with
      | some text =>
        rw [he] at herror
        exact herror
      | none =>
        rw [he] at herror
        cases herror
    · cases p.transition <;> rfl
  | _ => cases hp

end CatchEntry

namespace Compile

/-- A list of error handlers with other names is read as the error handlers with these names. -/
theorem readHandlers_mapNames {form : Fields} {hs : List CatchEntry} (σ : String → String)
    (h : readHandlers form = .ok hs) : readHandlers (TransitionRule.handlers.mapNames σ form)
      = .ok (hs.mapFirst PortCount.greatest (CatchEntry.mapName σ)) := by
  have hget : (TransitionRule.handlers.mapNames σ form).get? "catch" = (form.get? "catch").map
      (Json.onList (List.mapFirst PortCount.greatest (TransitionSlot.mapEntry σ))) :=
    Fields.get?_mapValues_of_mem (TransitionRule.handlers.nodup_namings σ)
      (TransitionRule.mem_namings_of_list rfl) form
  unfold readHandlers at h ⊢
  rw [hget]
  cases hv : form.get? "catch" with
  | none =>
    rw [hv] at h
    cases h
    rfl
  | some v =>
    rw [hv] at h
    cases v with
    | null =>
      cases h
      rfl
    | arr items =>
      simp only [Option.map_some, Json.onList] at h ⊢
      split at h
      next read hread =>
        cases h
        have hlist := Except.mapM_eq_ok_iff.1 ((Json.list_part _ items).symm.trans hread)
        have hmapped : Json.readValue (Record.list CatchEntry.read) (.arr (items.mapFirst
            PortCount.greatest (TransitionSlot.mapEntry σ)))
            = .ok (hs.mapFirst PortCount.greatest (CatchEntry.mapName σ)) :=
          (Json.list_part _ _).trans (Except.mapM_eq_ok_iff.2
            (hlist.mapFirst (fun _ _ => CatchEntry.read_mapEntry) _))
        rw [hmapped]
      next => cases h
    | _ => cases h

end Compile

end Workflow
