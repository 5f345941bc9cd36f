import Mathlib.Data.List.Perm.Subperm
import Workflow.Proofs.Walk

/-!
# Walks without a bound

A visit is bounded by fuel so that it always ends. `Runs` is what visits do without the bound: a run
is a finite derivation, which goes one level down for each vertex that is expanded and says what was
visited also when a vertex has no outcome. Every vertex that is expanded was not visited before
(`Runs.fresh`) and is visited from then on (`Runs.visited`), so each is expanded once and at most one
outcome is added for each (`Runs.outcomes`).

When only the vertices of a finite list lead anywhere, there is always a run (`exists_runs`): every
expansion leaves one vertex of the list less to visit. A visit with fuel for all of them does what
the run does (`Runs.foldlM_visit`), so the fuel never runs out.
-/

namespace Workflow.Walk

variable {ν α ε : Type} {expand : ν → Traced ν ε α}

/-- The vertices `vs` are visited one after the other: `new` are those that were expanded, in the
order in which they were marked, `w'` is the walk that is left, and the outcome is the error that cut
it short, if any. -/
inductive Runs (expand : ν → Traced ν ε α) :
    Walk ν α → List ν → List ν → Walk ν α → Except ε Unit → Prop
  | nil {w : Walk ν α} : Runs expand w [] [] w (.ok ())
  /-- Nothing happens to a vertex that was visited. -/
  | seen {w w' : Walk ν α} {v : ν} {vs new : List ν} {outcome : Except ε Unit}
      (hv : v ∈ w.visited) (hrest : Runs expand w vs new w' outcome) :
      Runs expand w (v :: vs) new w' outcome
  /-- Something that the vertex leads to has no outcome. -/
  | failed {w w' : Walk ν α} {v : ν} {vs new : List ν} {e : ε} (hv : v ∉ w.visited)
      (htrace : Runs expand { w with visited := v :: w.visited } (expand v).trace new w' (.error e)) :
      Runs expand w (v :: vs) (v :: new) w' (.error e)
  /-- The vertex itself has no outcome. -/
  | stuck {w w' : Walk ν α} {v : ν} {vs new : List ν} {e : ε} (hv : v ∉ w.visited)
      (htrace : Runs expand { w with visited := v :: w.visited } (expand v).trace new w' (.ok ()))
      (ho : (expand v).outcome = .error e) : Runs expand w (v :: vs) (v :: new) w' (.error e)
  | finished {w w₁ w' : Walk ν α} {v : ν} {vs new later : List ν} {a : α} {outcome : Except ε Unit}
      (hv : v ∉ w.visited)
      (htrace : Runs expand { w with visited := v :: w.visited } (expand v).trace new w₁ (.ok ()))
      (ho : (expand v).outcome = .ok a)
      (hrest : Runs expand { w₁ with finished := w₁.finished ++ [a] } vs later w' outcome) :
      Runs expand w (v :: vs) (v :: (new ++ later)) w' outcome

namespace Runs

variable {w w' : Walk ν α} {vs new : List ν} {outcome : Except ε Unit}

/-- What is expanded is visited from then on, also when the walk is cut short. -/
theorem visited (h : Runs expand w vs new w' outcome) : w'.visited = new.reverse ++ w.visited := by
  induction h with
  | nil => rfl
  | seen _ _ ih => exact ih
  | failed _ _ ih | stuck _ _ _ ih => simp [ih]
  | finished _ _ _ _ ihtrace ihrest => simp [ihrest, ihtrace]

theorem mem_visited (h : Runs expand w vs new w' outcome) {x : ν} :
    x ∈ w'.visited ↔ x ∈ new ∨ x ∈ w.visited := by
  rw [h.visited, List.mem_append, List.mem_reverse]

/-- No vertex is expanded that was visited before, and none twice. -/
theorem fresh (h : Runs expand w vs new w' outcome) :
    new.Nodup ∧ ∀ x ∈ new, x ∉ w.visited := by
  -- What follows the mark of a vertex finds the vertex visited.
  have hmark : ∀ {w : Walk ν α} {v : ν} {new : List ν}, v ∉ w.visited →
      (new.Nodup ∧ ∀ x ∈ new, x ∉ v :: w.visited) →
      (v :: new).Nodup ∧ ∀ x ∈ v :: new, x ∉ w.visited := by
    intro w v new hv ⟨hnodup, hnew⟩
    refine ⟨List.nodup_cons.2 ⟨fun hmem => hnew v hmem List.mem_cons_self, hnodup⟩, fun x hx => ?_⟩
    rcases List.mem_cons.1 hx with rfl | hx
    · exact hv
    · exact fun hmem => hnew x hx (List.mem_cons_of_mem v hmem)
  induction h with
  | nil => exact ⟨List.nodup_nil, nofun⟩
  | seen _ _ ih => exact ih
  | failed hv _ ih | stuck hv _ _ ih => exact hmark hv ih
  | @finished w w₁ _ v _ new later _ _ hv htrace _ _ ihtrace ihrest =>
    have hlater : ∀ x ∈ later, x ∉ new ∧ x ∉ v :: w.visited := fun x hx =>
      not_or.1 fun hmem => ihrest.2 x hx (htrace.mem_visited.2 hmem)
    refine hmark hv ⟨List.nodup_append.2 ⟨ihtrace.1, ihrest.1, ?_⟩, fun x hx => ?_⟩
    · rintro x hx _ hy rfl
      exact (hlater x hy).1 hx
    · exact (List.mem_append.1 hx).elim (ihtrace.2 x) fun hx => (hlater x hx).2

/-- What is finished are outcomes of vertices that were expanded, at most one of each. -/
theorem outcomes (h : Runs expand w vs new w' outcome) :
    ∃ done outcomes, done.Subperm new ∧ w'.finished = w.finished ++ outcomes ∧
      List.Forall₂ (fun x a => (expand x).outcome = .ok a) done outcomes := by
  induction h with
  | nil => exact ⟨[], [], .refl _, (List.append_nil _).symm, .nil⟩
  | seen _ _ ih => exact ih
  | failed _ _ ih | stuck _ _ _ ih =>
    obtain ⟨done, outcomes, hsub, hfin, hout⟩ := ih
    exact ⟨done, outcomes, hsub.trans (List.sublist_cons_self _ _).subperm, hfin, hout⟩
  | @finished _ _ _ v _ new later a _ _ _ ho _ ihtrace ihrest =>
    obtain ⟨done₁, outcomes₁, hsub₁, hfin₁, hout₁⟩ := ihtrace
    obtain ⟨done₂, outcomes₂, hsub₂, hfin₂, hout₂⟩ := ihrest
    refine ⟨done₁ ++ v :: done₂, outcomes₁ ++ a :: outcomes₂, ?_, ?_,
      List.rel_append hout₁ (.cons ho hout₂)⟩
    · exact List.perm_middle.subperm.trans ((List.subperm_cons v).2 (hsub₁.append hsub₂))
    · rw [hfin₂, hfin₁]
      simp only [List.append_assoc, List.singleton_append]

/-- A vertex that leads nowhere and has no outcome ends the run. -/
theorem eq_error_of_mem (h : Runs expand w vs new w' outcome) {x : ν} (hx : x ∈ new) {e : ε}
    (hstuck : expand x = ⟨[], .error e⟩) : outcome = .error e := by
  induction h with
  | nil => cases hx
  | seen _ _ ih => exact ih hx
  | failed _ htrace ih =>
    rcases List.mem_cons.1 hx with rfl | hx
    · rw [hstuck] at htrace
      cases htrace
    · exact ih hx
  | stuck _ _ ho ih =>
    rcases List.mem_cons.1 hx with rfl | hx
    · rw [hstuck] at ho
      rw [Except.error.inj ho]
    · cases ih hx
  | finished _ _ ho _ ihtrace ihrest =>
    rcases List.mem_cons.1 hx with rfl | hx
    · rw [hstuck] at ho
      cases ho
    · rcases List.mem_append.1 hx with hx | hx
      · cases ihtrace hx
      · exact ihrest hx

end Runs

variable [DecidableEq ν]

/-- There is a run from every walk when only the vertices of `live` lead anywhere. -/
theorem exists_runs {live : List ν} (hlive : ∀ v, v ∉ live → (expand v).trace = []) (w : Walk ν α)
    (vs : List ν) : ∃ new w' outcome, Runs expand w vs new w' outcome := by
  -- The induction is on the vertices of `live` that were not visited. What a vertex leads to is
  -- visited with one of them less, and what comes after it with at most as many.
  obtain ⟨n, hn⟩ : ∃ n, (unvisited live w).length ≤ n := ⟨_, Nat.le_refl _⟩
  induction n using Nat.strong_induction_on generalizing w vs with
  | _ n ihn =>
    induction vs generalizing w with
    | nil => exact ⟨[], w, _, .nil⟩
    | cons v vs ih =>
      by_cases hv : v ∈ w.visited
      · obtain ⟨new, w', outcome, hrest⟩ := ih w hn
        exact ⟨new, w', outcome, .seen hv hrest⟩
      obtain ⟨new, w₁, first, htrace⟩ : ∃ new w₁ first,
          Runs expand { w with visited := v :: w.visited } (expand v).trace new w₁ first := by
        by_cases hmem : v ∈ live
        · have hlt := length_unvisited_lt hmem hv
          exact ihn _ (Nat.lt_of_lt_of_le hlt hn) _ _ (Nat.le_refl _)
        · rw [hlive v hmem]
          exact ⟨[], _, .ok (), .nil⟩
      match first, hout : (expand v).outcome with
      | .error e, _ => exact ⟨_, _, _, .failed hv htrace⟩
      | .ok (), .error e => exact ⟨_, _, _, .stuck hv htrace hout⟩
      | .ok (), .ok a =>
        have hle : (unvisited live w₁).length ≤ (unvisited live w).length :=
          length_unvisited_le live fun x hx =>
            htrace.mem_visited.2 (.inr (List.mem_cons_of_mem v hx))
        obtain ⟨later, w', outcome, hrest⟩ :=
          ih { w₁ with finished := w₁.finished ++ [a] } (Nat.le_trans hle hn)
        exact ⟨_, _, _, .finished hv htrace hout hrest⟩

/-- Visits with fuel do what a run does. Only the vertices of `live` take fuel, since the others lead
nowhere. -/
theorem Runs.foldlM_visit {live : List ν} (hlive : ∀ v, v ∉ live → (expand v).trace = [])
    {w w' : Walk ν α} {vs new : List ν} {outcome : Except ε Unit}
    (h : Runs expand w vs new w' outcome) (exhausted : ε) {fuel : Nat}
    (hfuel : (new.filter (· ∈ live)).length < fuel) :
    vs.foldlM (visit expand exhausted fuel) w = (fun _ => w') <$> outcome := by
  -- A vertex that leads somewhere takes one unit of fuel, and the others need none below them.
  have hbelow : ∀ {w w₁ : Walk ν α} {v : ν} {new : List ν} {first : Except ε Unit} {fuel : Nat},
      (∀ {fuel}, (new.filter (· ∈ live)).length < fuel →
        (expand v).trace.foldlM (visit expand exhausted fuel) w = (fun _ => w₁) <$> first) →
      ((v :: new).filter (· ∈ live)).length < fuel + 1 →
      (expand v).trace.foldlM (visit expand exhausted fuel) w = (fun _ => w₁) <$> first := by
    intro w w₁ v new first fuel ih hfuel
    by_cases hmem : v ∈ live
    · rw [List.filter_cons_of_pos (by simpa using hmem), List.length_cons] at hfuel
      exact ih (Nat.lt_of_succ_lt_succ hfuel)
    · have hnil := ih (Nat.lt_succ_self _)
      rw [hlive v hmem] at hnil ⊢
      exact hnil
  have hvisit : ∀ {w : Walk ν α} {v : ν} {fuel : Nat}, v ∉ w.visited →
      visit expand exhausted (fuel + 1) w v = (do
        let w ← (expand v).trace.foldlM (visit expand exhausted fuel)
          { w with visited := v :: w.visited }
        return { w with finished := w.finished ++ [← (expand v).outcome] }) :=
    fun hv => by rw [visit, if_neg hv]
  induction h generalizing fuel with
  | nil => rfl
  | seen hv hrest ih =>
    obtain ⟨fuel, rfl⟩ := Nat.exists_eq_succ_of_ne_zero (Nat.ne_zero_of_lt hfuel)
    rw [List.foldlM_cons, visit_of_mem _ _ _ hv, Except.ok_bind, ih hfuel]
  | failed hv htrace ih =>
    obtain ⟨fuel, rfl⟩ := Nat.exists_eq_succ_of_ne_zero (Nat.ne_zero_of_lt hfuel)
    rw [List.foldlM_cons, hvisit hv, hbelow ih hfuel]
    rfl
  | stuck hv htrace ho ih =>
    obtain ⟨fuel, rfl⟩ := Nat.exists_eq_succ_of_ne_zero (Nat.ne_zero_of_lt hfuel)
    rw [List.foldlM_cons, hvisit hv, hbelow ih hfuel, ho]
    rfl
  | @finished _ _ _ v _ new later _ _ hv htrace ho hrest ihtrace ihrest =>
    obtain ⟨fuel, rfl⟩ := Nat.exists_eq_succ_of_ne_zero (Nat.ne_zero_of_lt hfuel)
    have hparts : ((v :: (new ++ later)).filter (· ∈ live)).length
        = ((v :: new).filter (· ∈ live)).length + (later.filter (· ∈ live)).length := by
      rw [← List.cons_append, List.filter_append, List.length_append]
    have hlater : (later.filter (· ∈ live)).length < fuel + 1 := by omega
    rw [List.foldlM_cons, hvisit hv, hbelow ihtrace (by omega), ho, ← ihrest hlater]
    rfl

/-- A visit with fuel for all vertices that lead anywhere does what some run does, so it does not run
out of fuel: more fuel changes nothing, nor does the error for running out. -/
theorem visit_runs {live : List ν} (hlive : ∀ v, v ∉ live → (expand v).trace = []) (w : Walk ν α)
    (v : ν) : ∃ new w' outcome, Runs expand w [v] new w' outcome ∧
      ∀ (exhausted : ε) (fuel : Nat), live.length < fuel →
        visit expand exhausted fuel w v = (fun _ => w') <$> outcome := by
  obtain ⟨new, w', outcome, h⟩ := exists_runs hlive w [v]
  refine ⟨new, w', outcome, h, fun exhausted fuel hfuel => ?_⟩
  have hlength : (new.filter (· ∈ live)).length ≤ live.length :=
    ((h.fresh.1.filter _).subperm fun x hx => of_decide_eq_true (List.mem_filter.1 hx).2).length_le
  have hfold := h.foldlM_visit hlive exhausted (Nat.lt_of_le_of_lt hlength hfuel)
  rw [List.foldlM_cons] at hfold
  exact (bind_pure _).symm.trans hfold

end Workflow.Walk
