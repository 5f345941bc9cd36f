/-!
# Computations that leave a trace

A `Traced` computation leaves a list of marks and ends with a value or an error. The marks that were
left before an error remain.
-/

namespace Workflow

/-- A computation that leaves marks and ends with a value or an error. -/
structure Traced (τ ε α : Type) where
  /-- The marks, in the order in which they were left. -/
  trace : List τ
  outcome : Except ε α

namespace Traced

variable {τ ε α β : Type}

/-- A value without marks. -/
def done (v : α) : Traced τ ε α := ⟨[], .ok v⟩

/-- One computation after another; an error ends both. -/
def andThen (x : Traced τ ε α) (f : α → Traced τ ε β) : Traced τ ε β :=
  match x.outcome with
  | .ok v => ⟨x.trace ++ (f v).trace, (f v).outcome⟩
  | .error e => ⟨x.trace, .error e⟩

instance : Monad (Traced τ ε) where
  pure := done
  bind := andThen

instance : LawfulMonad (Traced τ ε) :=
  LawfulMonad.mk' _
    (fun x => by rcases x with ⟨t, (e | v)⟩ <;> simp [Functor.map, andThen, done])
    (fun v f => by simp [bind, pure, andThen, done])
    (fun x f g => by
      rcases x with ⟨t, (e | v)⟩
      · rfl
      · rcases h : (f v).outcome with e | w <;> simp [bind, andThen, h, List.append_assoc])

/-- An error without marks. -/
def fail (e : ε) : Traced τ ε α := ⟨[], .error e⟩

/-- Leaves marks. -/
def note (marks : List τ) : Traced τ ε Unit := ⟨marks, .ok ()⟩

instance : MonadLift (Except ε) (Traced τ ε) := ⟨fun x => ⟨[], x⟩⟩

end Traced

end Workflow
