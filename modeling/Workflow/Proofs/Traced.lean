import Workflow.Proofs.Except
import Workflow.Traced

/-!
# Outcomes of traced computations

How a computation that is put together from others can end with a value: each part ends with a
value, and the marks of the parts follow one another. `Within` bounds what a computation may leave
and end with, also one that fails.
-/

namespace Workflow.Traced

variable {τ ε α β : Type}

theorem liftM_eq (x : Except ε α) : (liftM x : Traced τ ε α) = ⟨[], x⟩ := rfl

theorem pure_eq (v : α) : (pure v : Traced τ ε α) = ⟨[], .ok v⟩ := rfl

theorem bind_eq (x : Traced τ ε α) (f : α → Traced τ ε β) : x >>= f = x.andThen f := rfl

/-- A sequence ends with a value when both of its parts do. -/
theorem bind_eq_ok_iff {x : Traced τ ε α} {f : α → Traced τ ε β} {trace : List τ} {b : β} :
    x >>= f = ⟨trace, .ok b⟩ ↔
      ∃ first a rest, x = ⟨first, .ok a⟩ ∧ f a = ⟨rest, .ok b⟩ ∧ trace = first ++ rest := by
  rcases x with ⟨t, e | v⟩
  · constructor
    · intro h
      simp [bind_eq, andThen] at h
    · rintro ⟨_, _, _, hx, _, _⟩
      simp at hx
  · constructor
    · intro h
      rw [bind_eq, andThen] at h
      obtain ⟨ht, ho⟩ := Traced.mk.inj h
      exact ⟨t, v, (f v).trace, rfl, by rw [← ho], ht.symm⟩
    · rintro ⟨first, a, rest, hx, hf, rfl⟩
      obtain ⟨rfl, hv⟩ := Traced.mk.inj hx
      cases hv
      simp [bind_eq, andThen, hf]

theorem liftM_bind_eq_ok_iff {x : Except ε α} {f : α → Traced τ ε β} {trace : List τ} {b : β} :
    (liftM x : Traced τ ε α) >>= f = ⟨trace, .ok b⟩ ↔
      ∃ a, x = .ok a ∧ f a = ⟨trace, .ok b⟩ := by
  rw [bind_eq_ok_iff]
  constructor
  · rintro ⟨first, a, rest, hx, hf, rfl⟩
    rw [liftM_eq] at hx
    obtain ⟨rfl, ha⟩ := Traced.mk.inj hx
    exact ⟨a, ha, hf⟩
  · rintro ⟨a, hx, hf⟩
    exact ⟨[], a, trace, by rw [liftM_eq, hx], hf, rfl⟩

theorem note_bind_eq_ok_iff {marks : List τ} {f : Unit → Traced τ ε β} {trace : List τ} {b : β} :
    note marks >>= f = ⟨trace, .ok b⟩ ↔ ∃ rest, f () = ⟨rest, .ok b⟩ ∧ trace = marks ++ rest := by
  rw [bind_eq_ok_iff]
  constructor
  · rintro ⟨first, a, rest, hx, hf, rfl⟩
    obtain ⟨rfl, -⟩ := Traced.mk.inj hx
    exact ⟨rest, hf, rfl⟩
  · rintro ⟨rest, hf, rfl⟩
    exact ⟨marks, (), rest, rfl, hf, rfl⟩

theorem fail_ne_ok {e : ε} {trace : List τ} {v : α} : (fail e : Traced τ ε α) ≠ ⟨trace, .ok v⟩ := by
  simp [fail]

/-- A computation is its marks and its value when it ends with one. -/
theorem eq_of_outcome {x : Traced τ ε α} {v : α} (h : x.outcome = .ok v) : x = ⟨x.trace, .ok v⟩ := by
  rw [← h]

/-! ### Outcomes alone -/

theorem outcome_bind (x : Traced τ ε α) (f : α → Traced τ ε β) :
    (x >>= f).outcome = x.outcome >>= fun a => (f a).outcome := by
  rcases x with ⟨t, e | v⟩ <;> rfl

theorem outcome_liftM (x : Except ε α) : (liftM x : Traced τ ε α).outcome = x := rfl

/-- Steps that take a changed start to the changed end, one after the other. -/
theorem outcome_foldlM_map {f : β → α → Traced τ ε β} {φ : β → β} {as : List α}
    (hstep : ∀ b, ∀ a ∈ as, (f (φ b) a).outcome = φ <$> (f b a).outcome) (b : β) :
    (as.foldlM f (φ b)).outcome = φ <$> (as.foldlM f b).outcome := by
  induction as generalizing b with
  | nil => rfl
  | cons a as ih =>
    rw [List.foldlM_cons, List.foldlM_cons, outcome_bind, outcome_bind,
      hstep b a List.mem_cons_self, bind_map_left, map_bind]
    exact bind_congr fun b' => ih (fun b a ha => hstep b a (List.mem_cons_of_mem _ ha)) b'

/-! ### Bounds -/

/-- All marks of a computation satisfy `M`, and the error that it may end with satisfies `P`. -/
structure Within (M : τ → Prop) (P : ε → Prop) (x : Traced τ ε α) : Prop where
  marks : ∀ m ∈ x.trace, M m
  fails : x.outcome.Fails P

variable {M : τ → Prop} {P : ε → Prop}

theorem within_pure (v : α) : (pure v : Traced τ ε α).Within M P := ⟨nofun, nofun⟩

theorem within_fail {e : ε} (h : P e) : (fail e : Traced τ ε α).Within M P :=
  ⟨nofun, Except.fails_error h⟩

theorem within_note {marks : List τ} (h : ∀ m ∈ marks, M m) :
    (note marks : Traced τ ε Unit).Within M P := ⟨h, nofun⟩

theorem within_liftM {x : Except ε α} (h : x.Fails P) : (liftM x : Traced τ ε α).Within M P :=
  ⟨nofun, h⟩

theorem Within.bind {x : Traced τ ε α} {f : α → Traced τ ε β} (hx : x.Within M P)
    (hf : ∀ a, x.outcome = .ok a → (f a).Within M P) : (x >>= f).Within M P := by
  rcases x with ⟨t, e | a⟩
  · exact ⟨hx.marks, Except.fails_error (hx.fails e rfl)⟩
  · obtain ⟨hm, he⟩ := hf a rfl
    exact ⟨fun m hmem => (List.mem_append.1 hmem).elim (hx.marks m) (hm m), he⟩

/-- What fails within bounds is followed by what stays within them. -/
theorem within_liftM_bind {x : Except ε α} {f : α → Traced τ ε β} (hx : x.Fails P)
    (hf : ∀ a, x = .ok a → (f a).Within M P) : ((liftM x : Traced τ ε α) >>= f).Within M P :=
  (within_liftM hx).bind hf

theorem within_foldlM {f : β → α → Traced τ ε β} {as : List α}
    (hstep : ∀ b, ∀ a ∈ as, (f b a).Within M P) (b : β) : (as.foldlM f b).Within M P := by
  induction as generalizing b with
  | nil => exact within_pure b
  | cons a as ih =>
    rw [List.foldlM_cons]
    exact (hstep b a List.mem_cons_self).bind fun b' _ =>
      ih (fun b a ha => hstep b a (List.mem_cons_of_mem _ ha)) b'

end Workflow.Traced
