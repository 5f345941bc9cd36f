import Workflow.Proofs.Walk

/-!
# The order in which a walk finishes vertices

A walk finishes a vertex after what it leads to. Two exceptions are possible: what was visited
before the walk went on, and what leads back to the vertex, since that may be under way when the
vertex is met. `Ordered` says this of the new vertices of a walk, and `visit_ordered` proves it of a visit.
When vertices are visited one after the other, each is finished after everything that only it
reaches (`foldlM_visit_last`).
-/

namespace Workflow.Walk

variable {ν α ε : Type} {expand : ν → Traced ν ε α}

/-- What a new vertex leads to was visited before, was finished before it, or leads back to it. -/
def Ordered (expand : ν → Traced ν ε α) (w : Walk ν α) (new : List ν) : Prop :=
  ∀ x ∈ new, ∀ y, Leads expand x y → y ∈ w.visited ∨ [y, x].Sublist new ∨ Reaches expand y x

/-- Between two walks the same vertices are new, in whatever order. -/
theorem Grows.mem_new_iff {w w' : Walk ν α} {new : List ν} (h : Grows expand w w' new) {x : ν} :
    x ∈ new ↔ x ∈ w'.visited ∧ x ∉ w.visited := by
  constructor
  · exact fun hx => ⟨(h.mem_visited x).2 (.inl hx), h.fresh x hx⟩
  · exact fun hx => ((h.mem_visited x).1 hx.1).resolve_right hx.2

theorem Ordered.append {w w₁ : Walk ν α} {first second : List ν} (hg : Grows expand w w₁ first)
    (h₁ : Ordered expand w first) (h₂ : Ordered expand w₁ second) :
    Ordered expand w (first ++ second) := by
  intro x hx y hxy
  rcases List.mem_append.1 hx with hx | hx
  · rcases h₁ x hx y hxy with hy | hy | hy
    · exact .inl hy
    · exact .inr (.inl (hy.trans (List.sublist_append_left first second)))
    · exact .inr (.inr hy)
  · rcases h₂ x hx y hxy with hy | hy | hy
    · rcases (hg.mem_visited y).1 hy with hy | hy
      · exact .inr (.inl ((List.singleton_sublist.2 hy).append (List.singleton_sublist.2 hx)))
      · exact .inl hy
    · exact .inr (.inl (hy.trans (List.sublist_append_right first second)))
    · exact .inr (.inr hy)

/-- Finishing a vertex after everything that it leads to was visited. What leads to the vertex while
it is under way is reached from it. -/
theorem Ordered.finish {w w₁ : Walk ν α} {new : List ν} {v : ν}
    (h : Ordered expand { w with visited := v :: w.visited } new)
    (hg : Grows expand { w with visited := v :: w.visited } w₁ new)
    (hall : ∀ x, Leads expand v x → x ∈ w₁.visited) (hreach : ∀ x ∈ new, Reaches expand v x) :
    Ordered expand w (new ++ [v]) := by
  intro x hx y hxy
  rcases List.mem_append.1 hx with hx | hx
  · rcases h x hx y hxy with hy | hy | hy
    · rcases List.mem_cons.1 hy with hyv | hy
      · exact .inr (.inr (hyv ▸ hreach x hx))
      · exact .inl hy
    · exact .inr (.inl (hy.trans (List.sublist_append_left new [v])))
    · exact .inr (.inr hy)
  · obtain rfl := List.mem_singleton.1 hx
    rcases (hg.mem_visited y).1 (hall y hxy) with hy | hy
    · exact .inr (.inl ((List.singleton_sublist.2 hy).append (.refl _)))
    · rcases List.mem_cons.1 hy with rfl | hy
      · exact .inr (.inr .refl)
      · exact .inl hy

theorem foldlM_ordered {β : Type} {step : Walk ν α → β → Except ε (Walk ν α)}
    (hstep : ∀ w w' b, step w b = .ok w' → ∃ new, Grows expand w w' new ∧ Ordered expand w new)
    (bs : List β) {w w' : Walk ν α} (h : bs.foldlM step w = .ok w') :
    ∃ new, Grows expand w w' new ∧ Ordered expand w new := by
  induction bs generalizing w with
  | nil =>
    cases h
    exact ⟨[], .refl _, nofun⟩
  | cons b bs ih =>
    rw [List.foldlM_cons] at h
    obtain ⟨w₁, hb, h⟩ := Except.bind_eq_ok_iff.1 h
    obtain ⟨first, hg₁, ho₁⟩ := hstep w w₁ b hb
    obtain ⟨second, hg₂, ho₂⟩ := ih h
    exact ⟨first ++ second, hg₁.trans hg₂, ho₁.append hg₁ ho₂⟩

variable [DecidableEq ν] {exhausted : ε}

/-- A visit finishes its vertex last, if it is new, and every other one after what that leads to. -/
theorem visit_ordered (fuel : Nat) (w w' : Walk ν α) (v : ν)
    (h : visit expand exhausted fuel w v = .ok w') :
    ∃ new, Grows expand w w' new ∧ Ordered expand w new ∧
      (v ∈ w.visited ∨ ∃ before, new = before ++ [v]) := by
  induction fuel generalizing w w' v with
  | zero => simp [visit] at h
  | succ fuel ih =>
    by_cases hv : v ∈ w.visited
    · rw [visit_of_mem _ _ _ hv] at h
      cases h
      have hnil : Ordered expand w [] := fun _ hx => absurd hx List.not_mem_nil
      exact ⟨[], .refl w, hnil, .inl hv⟩
    · obtain ⟨w₁, a, htrace, ha, rfl⟩ := visit_eq_ok_of_not_mem hv h
      obtain ⟨new, hg, ho⟩ := foldlM_ordered
        (fun w w' x hx => (ih w w' x hx).imp fun _ hnew => ⟨hnew.1, hnew.2.1⟩) _ htrace
      obtain ⟨others, hothers, hall, hmay, -⟩ := foldlM_grows (visit_grows fuel) _ _ _ htrace
      have hled : ∀ x, Leads expand v x → x ∈ w₁.visited := fun x hx => hall x hx x rfl
      have hreach : ∀ x ∈ new, Reaches expand v x := by
        intro x hx
        obtain ⟨u, hu, hux, -⟩ := hmay x (hothers.mem_new_iff.2 (hg.mem_new_iff.1 hx))
        exact .head hu hux
      exact ⟨new ++ [v], hg.finish hv hled ha, ho.finish hg hled hreach, .inr ⟨new, rfl⟩⟩

/-- When vertices are visited one after the other, each is finished after what it reaches, apart
from what was there before or is reached by an earlier one. -/
theorem foldlM_visit_last {fuel : Nat} (vs : List ν) {w w' : Walk ν α} {ids : List ν}
    (hw : Grows expand start w ids) (h : vs.foldlM (visit expand exhausted fuel) w = .ok w') :
    ∃ new, Grows expand w w' new ∧ ∀ earlier v later, vs = earlier ++ v :: later →
      ∀ x, Reaches expand v x → x ≠ v → x ∉ w.visited → (∀ u ∈ earlier, ¬Reaches expand u x) →
        [x, v].Sublist new := by
  induction vs generalizing w ids with
  | nil =>
    cases h
    exact ⟨[], .refl _, fun earlier v later hnil => absurd hnil (by simp)⟩
  | cons u vs ih =>
    rw [List.foldlM_cons] at h
    obtain ⟨w₁, hu, h⟩ := Except.bind_eq_ok_iff.1 h
    obtain ⟨first, hg₁, -, hlast⟩ := visit_ordered _ _ _ _ hu
    obtain ⟨others, hothers, hvisited, hmay⟩ := visit_grows _ _ _ _ hu
    obtain ⟨second, hg₂, hrest⟩ := ih (hw.trans hg₁) h
    refine ⟨first ++ second, hg₁.trans hg₂, fun earlier v later heq x hvx hne hx hnone => ?_⟩
    rcases List.cons_eq_append_iff.1 heq with ⟨rfl, hcons⟩ | ⟨earlier', rfl, hvs⟩
    · obtain ⟨rfl, rfl⟩ := List.cons.inj hcons
      have hxids : x ∉ ids := fun hmem => hx (hw.mem_visited_iff.2 hmem)
      rcases hlast with hv | ⟨before, rfl⟩
      · exact absurd (hw.mem_of_reaches (hw.mem_visited_iff.1 hv) hvx) hxids
      · have hall := hw.trans hg₁
        have hmem := hall.mem_of_reaches (hall.mem_visited_iff.1 (hvisited v rfl)) hvx
        have hbefore : x ∈ before := by simpa [hxids, hne] using hmem
        exact ((List.singleton_sublist.2 hbefore).append (.refl [v])).trans
          (List.sublist_append_left _ second)
    · -- The first vertex does not reach `x`, so `x` is still new after it was visited.
      have hx₁ : x ∉ w₁.visited := fun hmem =>
        hnone u List.mem_cons_self (hmay x (hothers.mem_new_iff.2 ⟨hmem, hx⟩)).1
      exact (hrest earlier' v later hvs x hvx hne hx₁ fun q hq =>
        hnone q (List.mem_cons_of_mem u hq)).trans (List.sublist_append_right first second)

/-- What a single visit finished, in reverse: its vertex is the first, the others are those that it
reaches, and each stands before what it leads to and what does not lead back to it. -/
theorem visit_reversed {fuel : Nat} {w : Walk ν α} {v : ν}
    (h : visit expand exhausted fuel start v = .ok w) :
    ∃ rest, Grows expand start { w with finished := w.finished.reverse } (v :: rest) ∧
      (∀ x, x ∈ v :: rest ↔ Reaches expand v x) ∧
      ∀ x y, Reaches expand v x → Leads expand x y → ¬Reaches expand y x →
        [x, y].Sublist (v :: rest) := by
  obtain ⟨new, hg, ho, hlast⟩ := visit_ordered _ _ _ _ h
  obtain ⟨others, hothers, hvisited, hmay⟩ := visit_grows _ _ _ _ h
  have hmem : ∀ x, x ∈ new ↔ Reaches expand v x := by
    intro x
    constructor
    · exact fun hx => (hmay x (hothers.mem_new_iff.2 (hg.mem_new_iff.1 hx))).1
    · exact fun hx => hg.mem_of_reaches (hg.mem_visited_iff.1 (hvisited v rfl)) hx
  obtain ⟨before, rfl⟩ := hlast.resolve_left List.not_mem_nil
  have hreverse : (before ++ [v]).reverse = v :: before.reverse := by simp
  refine ⟨before.reverse, hreverse ▸ hg.reverse, fun x => ?_, fun x y hx hxy hyx => ?_⟩
  · rw [← hreverse, List.mem_reverse, hmem]
  · rw [← hreverse]
    rcases ho x ((hmem x).2 hx) y hxy with hy | hy | hy
    · exact absurd hy List.not_mem_nil
    · exact hy.reverse
    · exact absurd hy hyx

end Workflow.Walk
