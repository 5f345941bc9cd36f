import Workflow.Connect
import Workflow.Proofs.Graph.Holds

/-!
# Decisions about edges

`check_eq_ok_iff` lists everything that is decided about an edge and when. `connect_cases` says what
can have happened to a graph after an edge was connected.
-/

namespace Workflow.Graph

variable {T : Type} [NodeSpec T]

/-- A node with the family and the inputs of its type. -/
def IsTyped (c : Catalog T) (n : Node) : Prop :=
  ∃ t, c.get? n.kind = some t ∧ n.family = NodeSpec.family t ∧ n.inputs = NodeSpec.inputs t

/-- No rule speaks against an edge: the error output of a state, and nothing else, leads to an
error-catch node. -/
theorem refusal?_eq_none_iff {c : Catalog T} {source target : Node} {p : Port} :
    refusal? c source target p = .ok none ↔
      if source.isPrimitive then
        ∃ t, c.get? source.kind = some t ∧
          (NodeSpec.errorPort? t = some p ↔ target.isCatch = true)
      else target.isCatch = false := by
  unfold refusal?
  split
  · simp only [Except.bind_eq_ok_iff, Catalog.lookup_eq_ok_iff]
    refine exists_congr fun t => and_congr_right fun _ => ?_
    have hport : (NodeSpec.errorPort? t == some p) = decide (NodeSpec.errorPort? t = some p) :=
      beq_eq_decide _ _
    rw [hport]
    by_cases hp : NodeSpec.errorPort? t = some p <;> cases target.isCatch <;>
      simp [hp, pure, Except.pure]
  · cases target.isCatch <;> simp [pure, Except.pure]

/-- What is decided about an edge that no rule speaks against. -/
def placement (g : Graph) (source : Node) (e : Edge) : Verdict :=
  if source.allowsFanOut e.output then .accept
  else match g.edgeOn? e.source e.output with
    | some displaced => .replace displaced
    | none => .accept

/-- The part of `check` that follows the question whether the edge is there already. -/
theorem check_rest_eq (c : Catalog T) (g : Graph) (source target : Node) (e : Edge) :
    (do
      match ← refusal? c source target e.output with
      | some reason => return .reject reason
      | none =>
        if source.allowsFanOut e.output then return .accept
        else match g.edgeOn? e.source e.output with
          | some displaced => return .replace displaced
          | none => return .accept : Except Error Verdict)
      = (fun refusal => refusal.elim (g.placement source e) .reject) <$>
          refusal? c source target e.output := by
  unfold placement
  rcases refusal? c source target e.output with reason | ⟨_ | reason⟩
  · rfl
  · show (if source.allowsFanOut e.output then _ else _) = Except.ok (if _ then _ else _)
    split
    · rfl
    · cases g.edgeOn? e.source e.output <;> rfl
  · rfl

theorem check_eq_ok_iff {c : Catalog T} {g : Graph} {e : Edge} {v : Verdict} :
    g.check c e = .ok v ↔
      ∃ source target, g.node? e.source = some source ∧ g.node? e.target = some target ∧
        e.output.isWithin source.outputs = true ∧ e.input.isWithin target.inputs = true ∧
        if g.containsEdge e then v = .unchanged
        else ∃ refusal, refusal? c source target e.output = .ok refusal ∧
          v = refusal.elim (g.placement source e) .reject := by
  simp only [check, Except.bind_eq_ok_iff, node_eq_ok_iff, Except.check_eq_ok_iff,
    Bool.not_eq_true', Bool.not_eq_false]
  have hdecision : ∀ source target,
      (if g.containsEdge e then pure .unchanged
        else (fun refusal => refusal.elim (g.placement source e) .reject) <$>
          refusal? c source target e.output) = Except.ok v ↔
      if g.containsEdge e then v = .unchanged
      else ∃ refusal, refusal? c source target e.output = .ok refusal ∧
        v = refusal.elim (g.placement source e) .reject := by
    intro source target
    split
    · rw [Except.pure_eq_ok_iff, eq_comm]
    · rw [Except.map_eq_ok_iff]
      simp only [eq_comm (a := v)]
  constructor
  · rintro ⟨source, hs, target, ht, ho, hi, hrest⟩
    refine ⟨source, target, hs, ht, ho, hi, (hdecision source target).1 ?_⟩
    rw [← check_rest_eq]
    exact hrest
  · rintro ⟨source, target, hs, ht, ho, hi, hrest⟩
    refine ⟨source, hs, target, ht, ho, hi, ?_⟩
    have hrest := (hdecision source target).2 hrest
    rw [← check_rest_eq] at hrest
    exact hrest

/-- A graph after an edge was connected: it is as it was; or the edge was added to it, or to what
was left without an edge that gave way, and no rule speaks against the edge; or only the edge that
gave way is gone. -/
theorem connect_cases (c : Catalog T) (g : Graph) (e : Edge) :
    (g.connect c e).1 = g ∨
      ∃ rest, (rest = g ∨ ∃ displaced, rest = (g.eraseEdge? displaced).getD g) ∧
        ((g.connect c e).1 = rest ∨ rest.addEdge e = .ok (g.connect c e).1 ∧
          ∃ source target, g.node? e.source = some source ∧ g.node? e.target = some target ∧
            refusal? c source target e.output = .ok none) := by
  have hadopt : ∀ (rest : Graph) v, (rest.adopt e v).1 = rest ∨
      rest.addEdge e = .ok (rest.adopt e v).1 := by
    intro rest v
    unfold adopt
    cases rest.addEdge e with
    | ok g' => exact .inr rfl
    | error reason => exact .inl rfl
  unfold connect
  cases hcheck : g.check c e with
  | error reason => exact .inl rfl
  | ok v =>
    obtain ⟨source, target, hs, ht, -, -, hv⟩ := check_eq_ok_iff.1 hcheck
    -- The verdicts after which the edge is added are those of an edge that nothing refuses.
    have hnone : v ≠ .unchanged → (∀ reason, v ≠ .reject reason) →
        refusal? c source target e.output = .ok none := by
      intro hunchanged hreject
      split at hv
      · exact absurd hv hunchanged
      · obtain ⟨_ | reason, hr, hv⟩ := hv
        · exact hr
        · exact absurd hv (hreject reason)
    cases v with
    | accept =>
      refine .inr ⟨g, .inl rfl, (hadopt g .accept).imp_right fun h => ⟨h, ?_⟩⟩
      exact ⟨source, target, hs, ht, hnone nofun nofun⟩
    | replace displaced =>
      refine .inr ⟨_, .inr ⟨displaced, rfl⟩, (hadopt _ _).imp_right fun h => ⟨h, ?_⟩⟩
      exact ⟨source, target, hs, ht, hnone nofun nofun⟩
    | unchanged => exact .inl rfl
    | reject reason => exact .inl rfl

end Workflow.Graph
