import Workflow.Traced

/-!
# Post-order walks

A walk visits a vertex after everything the vertex leads to, and each vertex at most once. What a
vertex leads to and what it amounts to is told by its expansion: a computation whose marks are the
vertices that have to be visited before its outcome counts. The depth of a walk is bounded by
`fuel`; a walk that needs more ends with the error `exhausted`.
-/

namespace Workflow

/-- A walk under way. -/
structure Walk (ν α : Type) where
  /-- The vertices that were visited, the last one first. -/
  visited : List ν
  /-- What the finished vertices amount to, in the order in which they were finished. -/
  finished : List α
  deriving DecidableEq, Repr

namespace Walk

variable {ν α ε : Type} [DecidableEq ν]

/-- The walk that has not begun. -/
def start : Walk ν α := ⟨[], []⟩

/-- Visits a vertex. -/
def visit (expand : ν → Traced ν ε α) (exhausted : ε) :
    (fuel : Nat) → Walk ν α → ν → Except ε (Walk ν α)
  | 0, _, _ => .error exhausted
  | fuel + 1, w, v =>
    if v ∈ w.visited then .ok w
    else do
      let x := expand v
      let w ← x.trace.foldlM (visit expand exhausted fuel) { w with visited := v :: w.visited }
      return { w with finished := w.finished ++ [← x.outcome] }

theorem visit_of_mem (expand : ν → Traced ν ε α) (exhausted : ε) (fuel : Nat) {w : Walk ν α}
    {v : ν} (h : v ∈ w.visited) : visit expand exhausted (fuel + 1) w v = .ok w := by
  simp [visit, h]

end Walk

end Workflow
