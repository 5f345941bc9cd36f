import Mathlib.Data.List.Forall2
import Mathlib.Data.List.Nodup
import Mathlib.Data.List.Perm.Basic
import Mathlib.Logic.Relation
import Mathlib.Logic.Relator
import Workflow.Proofs.Lists
import Workflow.Proofs.Traced
import Workflow.Walk

/-!
# What a walk visits

A walk from a vertex visits what can be reached from it, except what was visited before, and each
vertex once. `Grows` describes the difference between two walks of which one goes on from the other;
`visit_grows` shows that a visit grows a walk by vertices that can be reached, and that nothing that
they lead to is left out. So visits may come in any order (`foldlM_visit_perm`).
-/

namespace Workflow.Walk

variable {ν α ε : Type}

/-- A vertex has to be visited before the outcome of another one counts. -/
def Leads (expand : ν → Traced ν ε α) (v x : ν) : Prop := x ∈ (expand v).trace

/-- A vertex can be reached from another one. -/
def Reaches (expand : ν → Traced ν ε α) : ν → ν → Prop := Relation.ReflTransGen (Leads expand)

/-- A vertex that has an outcome leads to this one. -/
def Led (expand : ν → Traced ν ε α) (x : ν) : Prop :=
  ∃ v a, (expand v).outcome = .ok a ∧ Leads expand v x

/-- The second walk goes on from the first by the vertices `new`, in the order in which they were
finished. -/
structure Grows (expand : ν → Traced ν ε α) (w w' : Walk ν α) (new : List ν) : Prop where
  mem_visited : ∀ x, x ∈ w'.visited ↔ x ∈ new ∨ x ∈ w.visited
  fresh : ∀ x ∈ new, x ∉ w.visited
  nodup : new.Nodup
  finished : ∃ outcomes, w'.finished = w.finished ++ outcomes ∧
    List.Forall₂ (fun x a => (expand x).outcome = .ok a) new outcomes
  closed : ∀ x ∈ new, ∀ y, Leads expand x y → y ∈ w'.visited

variable {expand : ν → Traced ν ε α}

theorem Grows.refl (w : Walk ν α) : Grows expand w w [] where
  mem_visited x := by simp
  fresh := nofun
  nodup := List.nodup_nil
  finished := ⟨[], by simp, .nil⟩
  closed := nofun

theorem Grows.trans {w₁ w₂ w₃ : Walk ν α} {first second : List ν}
    (h₁ : Grows expand w₁ w₂ first) (h₂ : Grows expand w₂ w₃ second) :
    Grows expand w₁ w₃ (first ++ second) where
  mem_visited x := by
    rw [h₂.mem_visited, h₁.mem_visited, List.mem_append]
    tauto
  fresh x hx hw := by
    rcases List.mem_append.1 hx with hx | hx
    · exact h₁.fresh x hx hw
    · exact h₂.fresh x hx ((h₁.mem_visited x).2 (.inr hw))
  nodup := by
    refine List.nodup_append.2 ⟨h₁.nodup, h₂.nodup, ?_⟩
    rintro x hx _ hy rfl
    exact h₂.fresh x hy ((h₁.mem_visited x).2 (.inl hx))
  finished := by
    obtain ⟨o₁, he₁, hf₁⟩ := h₁.finished
    obtain ⟨o₂, he₂, hf₂⟩ := h₂.finished
    exact ⟨o₁ ++ o₂, by rw [he₂, he₁, List.append_assoc], List.rel_append hf₁ hf₂⟩
  closed x hx y hxy := by
    rcases List.mem_append.1 hx with hx | hx
    · exact (h₂.mem_visited y).2 (.inr (h₁.closed x hx y hxy))
    · exact h₂.closed x hx y hxy

/-- The order of what was finished does not matter when the walk had not begun. -/
theorem Grows.reverse {w : Walk ν α} {new : List ν} (h : Grows expand start w new) :
    Grows expand start { w with finished := w.finished.reverse } new.reverse where
  mem_visited x := by rw [List.mem_reverse]; exact h.mem_visited x
  fresh := nofun
  nodup := List.nodup_reverse.2 h.nodup
  finished := by
    obtain ⟨outcomes, he, hf⟩ := h.finished
    refine ⟨outcomes.reverse, ?_, List.forall₂_reverse_iff.2 hf⟩
    show w.finished.reverse = [] ++ outcomes.reverse
    rw [he]
    rfl
  closed x hx := h.closed x (List.mem_reverse.1 hx)

/-- The only new vertex with a property. -/
theorem Grows.filter_eq {w w' : Walk ν α} {new : List ν} (h : Grows expand w w' new)
    {root : ν → Bool} {v : ν} (honly : ∀ x ∈ new, root x = true → x = v)
    (hv : root v = true → v ∉ w.visited ∧ v ∈ w'.visited) :
    new.filter root = [v].filter root := by
  cases hroot : root v with
  | false =>
    rw [List.filter_cons_of_neg (by simp [hroot]), List.filter_nil, List.filter_eq_nil_iff]
    intro x hx hrx
    rw [honly x hx hrx, hroot] at hrx
    cases hrx
  | true =>
    obtain ⟨hnot, hmem⟩ := hv hroot
    have hmem := ((h.mem_visited v).1 hmem).resolve_right hnot
    rw [List.filter_cons_of_pos hroot, List.filter_nil]
    refine List.perm_singleton.1 ((List.perm_ext_iff_of_nodup (h.nodup.filter _)
      (List.nodup_singleton v)).2 fun x => ?_)
    rw [List.mem_filter, List.mem_singleton]
    exact ⟨fun hx => honly x hx.1 hx.2, fun hx => hx ▸ ⟨hmem, hroot⟩⟩

/-- Steps that grow a walk, taken one after the other: `must` tells what a step visits at least,
`may` what it visits at most. Vertices that only their own step may visit, such as those that
nothing leads to, are visited in the order of the steps. -/
theorem foldlM_grows {β : Type} {step : Walk ν α → β → Except ε (Walk ν α)}
    {must may : β → ν → Prop}
    (ih : ∀ w w' b, step w b = .ok w' → ∃ new, Grows expand w w' new ∧
      (∀ x, must b x → x ∈ w'.visited) ∧ ∀ x ∈ new, may b x)
    (bs : List β) (w w' : Walk ν α) (h : bs.foldlM step w = .ok w') :
    ∃ new, Grows expand w w' new ∧ (∀ b ∈ bs, ∀ x, must b x → x ∈ w'.visited) ∧
      (∀ x ∈ new, ∃ b ∈ bs, may b x) ∧
      ∀ (root : ν → Bool) (keyOf : β → ν),
        (∀ b ∈ bs, ∀ x, may b x → root x = true → x = keyOf b) →
        (∀ b ∈ bs, root (keyOf b) = true → must b (keyOf b) ∧ keyOf b ∉ w.visited) →
        (bs.map keyOf).Nodup → new.filter root = (bs.map keyOf).filter root := by
  induction bs generalizing w with
  | nil =>
    cases h
    exact ⟨[], .refl _, nofun, nofun, fun _ _ _ _ _ => rfl⟩
  | cons b bs ihbs =>
    rw [List.foldlM_cons] at h
    cases hb : step w b with
    | error e => simp [hb, bind, Except.bind] at h
    | ok w₁ =>
      simp only [hb, bind, Except.bind] at h
      obtain ⟨first, hg₁, hmust, hmay₁⟩ := ih w w₁ b hb
      obtain ⟨second, hg₂, hall, hmay₂, horder⟩ := ihbs w₁ h
      refine ⟨first ++ second, hg₁.trans hg₂, ?_, ?_, ?_⟩
      · intro a ha x hx
        rcases List.mem_cons.1 ha with rfl | ha
        · exact (hg₂.mem_visited x).2 (.inr (hmust x hx))
        · exact hall a ha x hx
      · intro x hx
        rcases List.mem_append.1 hx with hx | hx
        · exact ⟨b, List.mem_cons_self, hmay₁ x hx⟩
        · obtain ⟨a, ha, hax⟩ := hmay₂ x hx
          exact ⟨a, List.mem_cons_of_mem b ha, hax⟩
      · intro root keyOf honly hown hnd
        obtain ⟨hnot, hnd⟩ := List.nodup_cons.1 hnd
        have hfirst : ∀ x ∈ first, root x = true → x = keyOf b := fun x hx =>
          honly b List.mem_cons_self x (hmay₁ x hx)
        show _ = ([keyOf b] ++ bs.map keyOf).filter root
        rw [List.filter_append, List.filter_append, hg₁.filter_eq hfirst fun hb => ?_]
        · congr 1
          refine horder root keyOf (fun a ha => honly a (List.mem_cons_of_mem b ha))
            (fun a ha hroot => ?_) hnd
          obtain ⟨hmust, hfresh⟩ := hown a (List.mem_cons_of_mem b ha) hroot
          refine ⟨hmust, fun hvisited => ?_⟩
          rcases (hg₁.mem_visited _).1 hvisited with hx | hx
          · exact hnot (hfirst _ hx hroot ▸ List.mem_map_of_mem ha)
          · exact hfresh hx
        · obtain ⟨hb, hfresh⟩ := hown b List.mem_cons_self hb
          exact ⟨hfresh, hmust _ hb⟩

/-- Finishing a vertex after everything that it leads to was visited. -/
theorem Grows.finish {w w₁ : Walk ν α} {new : List ν} {v : ν} {a : α} (hv : v ∉ w.visited)
    (h : Grows expand { w with visited := v :: w.visited } w₁ new)
    (hall : ∀ x, Leads expand v x → x ∈ w₁.visited) (ha : (expand v).outcome = .ok a) :
    Grows expand w { w₁ with finished := w₁.finished ++ [a] } (new ++ [v]) where
  mem_visited x := by
    rw [h.mem_visited, List.mem_append, List.mem_singleton, List.mem_cons, or_assoc]
  fresh x hx hw := by
    rcases List.mem_append.1 hx with hx | hx
    · exact h.fresh x hx (List.mem_cons_of_mem v hw)
    · rw [List.mem_singleton.1 hx] at hw
      exact hv hw
  nodup := by
    refine List.nodup_append.2 ⟨h.nodup, List.pairwise_singleton _ v, ?_⟩
    rintro x hx _ hy rfl
    rw [List.mem_singleton.1 hy] at hx
    exact h.fresh v hx List.mem_cons_self
  finished := by
    obtain ⟨outcomes, he, hf⟩ := h.finished
    exact ⟨outcomes ++ [a], by simp only [he, List.append_assoc],
      List.rel_append hf (.cons ha .nil)⟩
  closed x hx y hxy := by
    rcases List.mem_append.1 hx with hx | hx
    · exact h.closed x hx y hxy
    · rw [List.mem_singleton.1 hx] at hxy
      exact hall y hxy

/-- A walk from the beginning visited what it added. -/
theorem Grows.mem_visited_iff {w : Walk ν α} {ids : List ν} (h : Grows expand start w ids) {x : ν} :
    x ∈ w.visited ↔ x ∈ ids := by
  rw [h.mem_visited]
  exact or_iff_left List.not_mem_nil

/-- A walk from the beginning visited everything that its vertices reach. -/
theorem Grows.mem_of_reaches {w : Walk ν α} {ids : List ν} (h : Grows expand start w ids) {x y : ν}
    (hx : x ∈ ids) (hxy : Reaches expand x y) : y ∈ ids := by
  induction hxy with
  | refl => exact hx
  | tail _ hyz ih => exact h.mem_visited_iff.1 (h.closed _ ih _ hyz)

/-- A relation that tells what the vertices of a walk from the beginning lead to tells what they
reach. -/
theorem Grows.reaches_iff {w : Walk ν α} {ids : List ν} (h : Grows expand start w ids)
    {R : ν → ν → Prop} (hR : ∀ x ∈ ids, ∀ y, Leads expand x y ↔ R x y) {x y : ν} (hx : x ∈ ids) :
    Reaches expand x y ↔ Relation.ReflTransGen R x y := by
  constructor
  · intro hxy
    induction hxy with
    | refl => exact .refl
    | tail hxy hyz ih => exact ih.tail ((hR _ (h.mem_of_reaches hx hxy) _).1 hyz)
  · intro hxy
    induction hxy with
    | refl => exact .refl
    | tail _ hyz ih => exact ih.tail ((hR _ (h.mem_of_reaches hx ih) _).2 hyz)

/-- Two walks that go on from the same one: what the vertices `vs` reach and the first walk adds, the
second one adds as well when it visits `vs`. -/
theorem Grows.subset_of_visits {w w₁ w₂ : Walk ν α} {ids new₁ new₂ vs : List ν}
    (hw : Grows expand start w ids) (h₁ : Grows expand w w₁ new₁) (h₂ : Grows expand w w₂ new₂)
    (hreach : ∀ x ∈ new₁, ∃ v ∈ vs, Reaches expand v x) (hvs : ∀ v ∈ vs, v ∈ w₂.visited) :
    new₁ ⊆ new₂ := by
  have hall := hw.trans h₂
  intro x hx
  obtain ⟨v, hv, hvx⟩ := hreach x hx
  have hmem : x ∈ ids ++ new₂ := hall.mem_of_reaches (hall.mem_visited_iff.1 (hvs v hv)) hvx
  -- The first walk found it new, so it is not one of the old vertices.
  exact (List.mem_append.1 hmem).resolve_left fun hold => h₁.fresh x hx (hw.mem_visited_iff.2 hold)

/-- The vertices that a walk added are expanded. -/
theorem Grows.outcome_ok {w w' : Walk ν α} {new : List ν} (h : Grows expand w w' new) {v : ν}
    (hv : v ∈ new) : ∃ a, (expand v).outcome = .ok a := by
  obtain ⟨outcomes, -, hout⟩ := h.finished
  obtain ⟨a, -, ha⟩ := hout.exists_of_mem_left hv
  exact ⟨a, ha⟩

/-! ### Walks that match -/

variable {ν' α' ε' : Type} {R : ν → ν' → Prop} {S : α → α' → Prop}

/-- Two walks visited vertices that match, in the same order, and ended with outcomes that match. -/
structure Matches (R : ν → ν' → Prop) (S : α → α' → Prop) (w : Walk ν α) (w' : Walk ν' α') :
    Prop where
  visited : List.Forall₂ R w.visited w'.visited
  finished : List.Forall₂ S w.finished w'.finished

theorem Matches.reverse {w : Walk ν α} {w' : Walk ν' α'} (h : Matches R S w w') :
    Matches R S { w with finished := w.finished.reverse }
      { w' with finished := w'.finished.reverse } :=
  ⟨h.visited, List.forall₂_reverse_iff.2 h.finished⟩

theorem foldlM_matches {β β' : Type} {Q : β → β' → Prop} {step : Walk ν α → β → Except ε (Walk ν α)}
    {step' : Walk ν' α' → β' → Except ε' (Walk ν' α')}
    (hstep : ∀ w w' w₁ w₁' b b', Q b b' → Matches R S w w' → step w b = .ok w₁ →
      step' w' b' = .ok w₁' → Matches R S w₁ w₁')
    {bs : List β} {bs' : List β'} (hbs : List.Forall₂ Q bs bs')
    {w w₁ : Walk ν α} {w' w₁' : Walk ν' α'}
    (hw : Matches R S w w') (h : bs.foldlM step w = .ok w₁) (h' : bs'.foldlM step' w' = .ok w₁') :
    Matches R S w₁ w₁' := by
  induction hbs generalizing w w' with
  | nil =>
    cases h
    cases h'
    exact hw
  | @cons b b' bs bs' hb _ ih =>
    rw [List.foldlM_cons] at h h'
    obtain ⟨w₂, hw₂, h⟩ := Except.bind_eq_ok_iff.1 h
    obtain ⟨w₂', hw₂', h'⟩ := Except.bind_eq_ok_iff.1 h'
    exact ih (hstep _ _ _ _ _ _ hb hw hw₂ hw₂') h h'

/-! ### Visits -/

variable [DecidableEq ν] {exhausted : ε}

theorem visit_eq_ok_of_not_mem {fuel : Nat} {w w' : Walk ν α} {v : ν} (hv : v ∉ w.visited)
    (h : visit expand exhausted (fuel + 1) w v = .ok w') :
    ∃ w₁ a, (expand v).trace.foldlM (visit expand exhausted fuel)
        { w with visited := v :: w.visited } = .ok w₁ ∧ (expand v).outcome = .ok a ∧
      w' = { w₁ with finished := w₁.finished ++ [a] } := by
  rw [visit, if_neg hv] at h
  cases hw₁ : (expand v).trace.foldlM (visit expand exhausted fuel)
      { w with visited := v :: w.visited } with
  | error e => simp [hw₁, bind, Except.bind] at h
  | ok w₁ =>
    cases ha : (expand v).outcome with
    | error e => simp [hw₁, ha, bind, Except.bind] at h
    | ok a =>
      simp only [hw₁, ha, bind, Except.bind, pure, Except.pure, Except.ok.injEq] at h
      exact ⟨w₁, a, rfl, rfl, h.symm⟩

/-- A visit grows a walk by vertices that can be reached, up to the visited one. Each of the others
is led to. -/
theorem visit_grows (fuel : Nat) (w w' : Walk ν α) (v : ν)
    (h : visit expand exhausted fuel w v = .ok w') :
    ∃ new, Grows expand w w' new ∧ (∀ x, v = x → x ∈ w'.visited) ∧
      ∀ x ∈ new, Reaches expand v x ∧ (x = v ∨ Led expand x) := by
  induction fuel generalizing w w' v with
  | zero => simp [visit] at h
  | succ fuel ih =>
    by_cases hv : v ∈ w.visited
    · rw [visit_of_mem _ _ _ hv] at h
      cases h
      refine ⟨[], .refl w, ?_, fun _ hx => absurd hx List.not_mem_nil⟩
      rintro _ rfl
      exact hv
    · obtain ⟨w₁, a, htrace, ha, rfl⟩ := visit_eq_ok_of_not_mem hv h
      obtain ⟨new, hg, hall, hr, -⟩ := foldlM_grows ih _ _ _ htrace
      refine ⟨new ++ [v], hg.finish hv (fun x hx => hall x hx x rfl) ha, ?_, ?_⟩
      · rintro _ rfl
        exact (hg.mem_visited v).2 (.inr List.mem_cons_self)
      · intro x hx
        rcases List.mem_append.1 hx with hx | hx
        · obtain ⟨u, hu, hux, hled⟩ := hr x hx
          refine ⟨.head hu hux, .inr ?_⟩
          rcases hled with rfl | hled
          · exact ⟨v, a, ha, hu⟩
          · exact hled
        · rw [List.mem_singleton.1 hx]
          exact ⟨.refl, .inl rfl⟩

/-- The vertices of `vs` that a walk has not visited. -/
def unvisited (vs : List ν) (w : Walk ν α) : List ν := vs.filter (· ∉ w.visited)

theorem length_unvisited_le (vs : List ν) {w w' : Walk ν α}
    (h : ∀ x, x ∈ w.visited → x ∈ w'.visited) :
    (unvisited vs w').length ≤ (unvisited vs w).length := by
  refine (List.monotone_filter_right vs fun x hx => ?_).length_le
  simp only [decide_eq_true_eq] at hx ⊢
  exact fun hmem => hx (h x hmem)

theorem length_unvisited_lt {vs : List ν} {w : Walk ν α} {v : ν} (hv : v ∈ vs)
    (hnew : v ∉ w.visited) :
    (unvisited vs { w with visited := v :: w.visited }).length < (unvisited vs w).length := by
  have hsub : (unvisited vs { w with visited := v :: w.visited })
      = (unvisited vs w).filter (· ≠ v) := by
    unfold unvisited
    rw [List.filter_filter]
    refine List.filter_congr fun x _ => ?_
    simp only [List.mem_cons, not_or, Bool.decide_and, ne_eq]
  rw [hsub]
  exact List.length_filter_lt_length_iff_exists.2
    ⟨v, List.mem_filter.2 ⟨hv, by simpa using hnew⟩, by simp⟩

/-- A visit ends with a walk when there is fuel for every vertex that was not visited, as long as
all of them can be expanded and lead to one another only. -/
theorem visit_ok {vs : List ν} (hclosed : ∀ v ∈ vs, ∀ x, Leads expand v x → x ∈ vs)
    (hok : ∀ v ∈ vs, ∃ a, (expand v).outcome = .ok a) (fuel : Nat) (w : Walk ν α) (v : ν)
    (hv : v ∈ vs) (hfuel : (unvisited vs w).length < fuel) :
    ∃ w', visit expand exhausted fuel w v = .ok w' := by
  induction fuel generalizing w v with
  | zero => exact absurd hfuel (Nat.not_lt_zero _)
  | succ fuel ih =>
    by_cases hnew : v ∈ w.visited
    · exact ⟨w, visit_of_mem _ _ _ hnew⟩
    · have hlt := length_unvisited_lt hv hnew
      -- What has to be visited first leaves at most as many vertices unvisited as there are now.
      have hstep : ∀ w₁, ∀ x ∈ (expand v).trace, (unvisited vs w₁).length < fuel →
          ∃ w₂, visit expand exhausted fuel w₁ x = .ok w₂ ∧ (unvisited vs w₂).length < fuel := by
        intro w₁ x hx hw₁
        obtain ⟨w₂, hw₂⟩ := ih w₁ x (hclosed v hv x hx) hw₁
        obtain ⟨new, hgrows, -, -⟩ := visit_grows _ _ _ _ hw₂
        have hle := length_unvisited_le vs fun y hy => (hgrows.mem_visited y).2 (.inr hy)
        exact ⟨w₂, hw₂, Nat.lt_of_le_of_lt hle hw₁⟩
      have hmark : (unvisited vs { w with visited := v :: w.visited }).length < fuel := by omega
      obtain ⟨w₂, hw₂, -⟩ := Except.foldlM_ok hstep hmark
      obtain ⟨a, ha⟩ := hok v hv
      refine ⟨{ w₂ with finished := w₂.finished ++ [a] }, ?_⟩
      rw [visit, if_neg hnew]
      simp only [hw₂, ha, bind, Except.bind, pure, Except.pure]

/-- A visit fails as expansions do, when expansions of vertices that satisfy `M` lead to such
vertices only, even if they have no outcome. -/
theorem visit_fails {M : ν → Prop} {P : ε → Prop} (hexpand : ∀ v, M v → (expand v).Within M P)
    (hexhausted : P exhausted) (fuel : Nat) (w : Walk ν α) {v : ν} (hv : M v) :
    (visit expand exhausted fuel w v).Fails P := by
  induction fuel generalizing w v with
  | zero => exact Except.fails_error hexhausted
  | succ fuel ih =>
    obtain ⟨hmarks, hfails⟩ := hexpand v hv
    unfold visit
    split
    · exact Except.fails_ok w
    · refine (Except.fails_foldlM (fun w x hx => ih w (hmarks x hx)) _).bind fun w _ => ?_
      exact hfails.bind fun _ _ => Except.fails_pure _

/-! ### Visits in another order -/

/-- Visits that end with a walk do so in any order, and then finish the same vertices. -/
theorem foldlM_visit_perm {fuel : Nat} {known : List ν}
    (hknown : ∀ v a, (expand v).outcome = .ok a → v ∈ known) (hfuel : known.length < fuel)
    {w w₁ : Walk ν α} {ids : List ν} (hw : Grows expand start w ids) {vs vs' : List ν}
    (hperm : vs'.Perm vs) (h : vs.foldlM (visit expand exhausted fuel) w = .ok w₁) :
    ∃ w₁' outcomes outcomes', vs'.foldlM (visit expand exhausted fuel) w = .ok w₁' ∧
      w₁.finished = w.finished ++ outcomes ∧ w₁'.finished = w.finished ++ outcomes' ∧
      outcomes'.Perm outcomes := by
  obtain ⟨new, hg, hall, hreach, -⟩ := foldlM_grows (visit_grows fuel) _ _ _ h
  have hgrows := hw.trans hg
  -- What was visited can be expanded and leads to nothing else, so it can be visited again.
  have hok : ∀ v ∈ ids ++ new, ∃ a, (expand v).outcome = .ok a := fun v hv => hgrows.outcome_ok hv
  have hlength : (ids ++ new).length ≤ known.length :=
    (hgrows.nodup.subperm fun v hv => (hok v hv).elim fun a ha => hknown v a ha).length_le
  have hstep : ∀ w₂, ∀ v ∈ vs', True → ∃ w₃, visit expand exhausted fuel w₂ v = .ok w₃ ∧ True := by
    intro w₂ v hv _
    have hmem : v ∈ ids ++ new := hgrows.mem_visited_iff.1 (hall v (hperm.mem_iff.1 hv) v rfl)
    have hle : (unvisited (ids ++ new) w₂).length ≤ (ids ++ new).length := List.length_filter_le _ _
    obtain ⟨w₃, hw₃⟩ := visit_ok (fun u hu x hux => hgrows.mem_of_reaches hu (.single hux)) hok fuel
      w₂ v hmem (by omega)
    exact ⟨w₃, hw₃, trivial⟩
  obtain ⟨w₁', h', -⟩ := Except.foldlM_ok (P := fun _ => True) hstep (b := w) trivial
  obtain ⟨new', hg', hall', hreach', -⟩ := foldlM_grows (visit_grows fuel) _ _ _ h'
  have hsub : new ⊆ new' := hw.subset_of_visits hg hg'
    (fun x hx => (hreach x hx).imp fun v hv => ⟨hv.1, hv.2.1⟩)
    fun v hv => hall' v (hperm.mem_iff.2 hv) v rfl
  have hsub' : new' ⊆ new := hw.subset_of_visits hg' hg
    (fun x hx => (hreach' x hx).imp fun v hv => ⟨hv.1, hv.2.1⟩)
    fun v hv => hall v (hperm.mem_iff.1 hv) v rfl
  have hnew : new'.Perm new :=
    (List.perm_ext_iff_of_nodup hg'.nodup hg.nodup).2 fun x => ⟨@hsub' x, @hsub x⟩
  obtain ⟨outcomes, hfin, hout⟩ := hg.finished
  obtain ⟨outcomes', hfin', hout'⟩ := hg'.finished
  have hunique : Relator.RightUnique fun (x : ν) (a : α) => (expand x).outcome = .ok a :=
    fun x a b ha hb => Except.ok.inj (ha.symm.trans hb)
  exact ⟨w₁', outcomes, outcomes', h', hfin, hfin', List.rel_perm_imp hunique hout' hout hnew⟩

/-! ### Visits that match -/

variable [DecidableEq ν'] {expand' : ν' → Traced ν' ε' α'} {exhausted' : ε'}

/-- Vertices that match are visited alike, when they lead to vertices that match and have outcomes
that match. -/
theorem visit_matches (hR : Relator.BiUnique R)
    (htrace : ∀ x x', R x x' → List.Forall₂ R (expand x).trace (expand' x').trace)
    (houtcome : ∀ x x' a a', R x x' → (expand x).outcome = .ok a → (expand' x').outcome = .ok a' →
      S a a')
    (fuel fuel' : Nat) (w : Walk ν α) (w' : Walk ν' α') (w₁ : Walk ν α) (w₁' : Walk ν' α') (x : ν)
    (x' : ν') (hx : R x x') (hw : Matches R S w w')
    (h : visit expand exhausted fuel w x = .ok w₁)
    (h' : visit expand' exhausted' fuel' w' x' = .ok w₁') : Matches R S w₁ w₁' := by
  induction fuel generalizing fuel' w w' w₁ w₁' x x' with
  | zero => simp [visit] at h
  | succ fuel ih =>
    cases fuel' with
    | zero => simp [visit] at h'
    | succ fuel' =>
      have hiff : x ∈ w.visited ↔ x' ∈ w'.visited := List.rel_mem hR hx hw.visited
      by_cases hmem : x ∈ w.visited
      · rw [visit_of_mem _ _ _ hmem] at h
        rw [visit_of_mem _ _ _ (hiff.1 hmem)] at h'
        cases h
        cases h'
        exact hw
      · obtain ⟨w₂, a, hfold, ha, rfl⟩ := visit_eq_ok_of_not_mem hmem h
        obtain ⟨w₂', a', hfold', ha', rfl⟩ := visit_eq_ok_of_not_mem (fun hm => hmem (hiff.2 hm)) h'
        have hmid : Matches R S { w with visited := x :: w.visited }
            { w' with visited := x' :: w'.visited } := ⟨.cons hx hw.visited, hw.finished⟩
        have hstep := foldlM_matches (ih fuel') (htrace x x' hx) hmid hfold hfold'
        refine ⟨hstep.visited, List.rel_append hstep.finished (.cons ?_ .nil)⟩
        exact houtcome x x' a a' hx ha ha'

/-- The walk with other outcomes for the finished vertices. -/
def mapFinished (f : α → α') (w : Walk ν α) : Walk ν α' := ⟨w.visited, w.finished.map f⟩

/-- A visit that ends with a walk does so as well when the vertices have other outcomes. -/
theorem visit_mapFinished {expand' : ν → Traced ν ε α'} {f : α → α'}
    (hexpand : ∀ v trace a, expand v = ⟨trace, .ok a⟩ → expand' v = ⟨trace, .ok (f a)⟩)
    (fuel : Nat) {w w' : Walk ν α} {v : ν} (h : visit expand exhausted fuel w v = .ok w') :
    visit expand' exhausted fuel (w.mapFinished f) v = .ok (w'.mapFinished f) := by
  induction fuel generalizing w w' v with
  | zero => simp [visit] at h
  | succ fuel ih =>
    by_cases hv : v ∈ w.visited
    · rw [visit_of_mem _ _ _ hv] at h
      cases h
      exact visit_of_mem _ _ _ hv
    · obtain ⟨w₁, a, hfold, ha, rfl⟩ := visit_eq_ok_of_not_mem hv h
      have hfresh : v ∉ (w.mapFinished f).visited := hv
      have hafter := hexpand v _ a (Traced.eq_of_outcome ha)
      have hfold' := Except.foldlM_map_ok (fun _ _ _ => ih) hfold
      rw [visit, if_neg hfresh, hafter]
      refine Except.bind_eq_ok_iff.2 ⟨_, hfold', congrArg Except.ok ?_⟩
      rw [mapFinished, mapFinished, List.map_append]
      rfl

end Workflow.Walk
