import Mathlib.Data.List.Forall2

/-!
# Outcomes of sequences

When a sequence of computations that may fail ends with a value, and which errors it may end with
(`Fails`).
-/

/-- Steps that agree on the items of a list, in any monad. -/
theorem List.foldlM_congr {m : Type → Type} [Monad m] {α β : Type} {f g : β → α → m β} {as : List α}
    (h : ∀ b, ∀ a ∈ as, f b a = g b a) (b : β) : as.foldlM f b = as.foldlM g b := by
  induction as generalizing b with
  | nil => rfl
  | cons a as ih =>
    rw [List.foldlM_cons, List.foldlM_cons, h b a List.mem_cons_self]
    exact bind_congr fun b' => ih (fun b a ha => h b a (List.mem_cons_of_mem _ ha)) b'

namespace Except

variable {ε α β : Type}

theorem bind_eq_ok_iff {x : Except ε α} {f : α → Except ε β} {b : β} :
    x >>= f = .ok b ↔ ∃ a, x = .ok a ∧ f a = .ok b := by
  cases x <;> simp [bind, Except.bind]

theorem ok_bind (a : α) (f : α → Except ε β) : (Except.ok a : Except ε α) >>= f = f a := rfl

theorem map_eq_ok_iff {x : Except ε α} {f : α → β} {b : β} :
    f <$> x = .ok b ↔ ∃ a, x = .ok a ∧ f a = b := by
  cases x <;> simp [Functor.map, Except.map]

theorem pure_eq_ok_iff {a b : α} : (pure a : Except ε α) = .ok b ↔ a = b := by
  simp [pure, Except.pure]

theorem throw_ne_ok {e : ε} {a : α} : (throw e : Except ε α) ≠ .ok a := nofun

/-- A check that fails ends the sequence. -/
theorem check_eq_ok_iff {c : Prop} [Decidable c] {e : ε} {x : Except ε α} {a : α} :
    (if c then (do throw e; x) else x) = .ok a ↔ ¬c ∧ x = .ok a := by
  by_cases h : c
  · simp [h, throw, throwThe, MonadExceptOf.throw, bind, Except.bind]
  · simp [h]

theorem mapM_eq_ok_iff {f : α → Except ε β} {as : List α} {bs : List β} :
    as.mapM f = .ok bs ↔ List.Forall₂ (fun a b => f a = .ok b) as bs := by
  induction as generalizing bs with
  | nil =>
    rw [List.mapM_nil, pure_eq_ok_iff, List.forall₂_nil_left_iff]
    exact eq_comm
  | cons a as ih =>
    rw [List.mapM_cons, bind_eq_ok_iff, List.forall₂_cons_left_iff]
    refine exists_congr fun b => ?_
    simp only [bind_eq_ok_iff, pure_eq_ok_iff, ih]
    constructor
    · rintro ⟨h, rest, hrest, rfl⟩
      exact ⟨rest, h, hrest, rfl⟩
    · rintro ⟨rest, h, hrest, rfl⟩
      exact ⟨h, rest, hrest, rfl⟩

/-- What every step keeps holds at the end of a sequence of steps. -/
theorem foldlM_induction {f : β → α → Except ε β} {P : β → Prop} {as : List α}
    (hstep : ∀ b, ∀ a ∈ as, ∀ b', P b → f b a = .ok b' → P b') {b b' : β} (hb : P b)
    (h : as.foldlM f b = .ok b') : P b' := by
  induction as generalizing b with
  | nil =>
    cases h
    exact hb
  | cons a as ih =>
    rw [List.foldlM_cons] at h
    obtain ⟨b₁, h₁, hrest⟩ := bind_eq_ok_iff.1 h
    refine ih (fun b a ha => hstep b a (List.mem_cons_of_mem _ ha)) ?_ hrest
    exact hstep b a List.mem_cons_self b₁ hb h₁

/-- A sequence of steps ends with a value when each step does so and keeps what the next one needs.
-/
theorem foldlM_ok {f : β → α → Except ε β} {P : β → Prop} {as : List α}
    (hstep : ∀ b, ∀ a ∈ as, P b → ∃ b', f b a = .ok b' ∧ P b') {b : β} (hb : P b) :
    ∃ b', as.foldlM f b = .ok b' ∧ P b' := by
  induction as generalizing b with
  | nil => exact ⟨b, rfl, hb⟩
  | cons a as ih =>
    obtain ⟨b₁, h₁, hb₁⟩ := hstep b a List.mem_cons_self hb
    obtain ⟨b', h', hb'⟩ := ih (fun b a ha => hstep b a (List.mem_cons_of_mem _ ha)) hb₁
    exact ⟨b', by rw [List.foldlM_cons, h₁]; exact h', hb'⟩

/-- Steps that can be taken from a changed start as well lead to the changed end. -/
theorem foldlM_map_ok {γ : Type} {f : β → α → Except ε β} {f' : γ → α → Except ε γ} {φ : β → γ}
    (hstep : ∀ b a b', f b a = .ok b' → f' (φ b) a = .ok (φ b')) {as : List α} {b b' : β}
    (h : as.foldlM f b = .ok b') : as.foldlM f' (φ b) = .ok (φ b') := by
  induction as generalizing b with
  | nil =>
    cases h
    rfl
  | cons a as ih =>
    rw [List.foldlM_cons] at h ⊢
    obtain ⟨b₁, h₁, hrest⟩ := bind_eq_ok_iff.1 h
    exact bind_eq_ok_iff.2 ⟨φ b₁, hstep b a b₁ h₁, ih hrest⟩

/-! ### Errors -/

/-- Every error that a computation may end with satisfies `P`. -/
def Fails (P : ε → Prop) (x : Except ε α) : Prop := ∀ e, x = .error e → P e

variable {P : ε → Prop}

theorem fails_ok (a : α) : Fails P (.ok a : Except ε α) := nofun

theorem fails_pure (a : α) : Fails P (pure a : Except ε α) := nofun

theorem fails_error {e : ε} (h : P e) : Fails P (.error e : Except ε α) := by
  rintro _ ⟨⟩
  exact h

theorem Fails.mono {Q : ε → Prop} {x : Except ε α} (hx : Fails P x) (h : ∀ e, P e → Q e) :
    Fails Q x := fun e he => h e (hx e he)

theorem Fails.bind {x : Except ε α} {f : α → Except ε β} (hx : Fails P x)
    (hf : ∀ a, x = .ok a → Fails P (f a)) : Fails P (x >>= f) := by
  cases x with
  | error e => exact fails_error (hx e rfl)
  | ok a => exact hf a rfl

/-- A sequence of steps fails as its steps do. -/
theorem fails_foldlM {f : β → α → Except ε β} {as : List α} (hstep : ∀ b, ∀ a ∈ as, Fails P (f b a))
    (b : β) : Fails P (as.foldlM f b) := by
  induction as generalizing b with
  | nil => exact fails_pure b
  | cons a as ih =>
    rw [List.foldlM_cons]
    exact (hstep b a List.mem_cons_self).bind fun b' _ =>
      ih (fun b a ha => hstep b a (List.mem_cons_of_mem _ ha)) b'

end Except
