import Workflow.Proofs.Compile.Failures
import Workflow.Proofs.Edit.Exclusive

/-!
# Checked edges are edges that can be compiled

The rules for edges ask for the error port of a type and for error-catch nodes; a compilation asks
for the slot of a port and for states. `Graph.Exclusive.guided` shows that they agree about every
edge, as long as the nodes that are no states have no inputs or are error-catch nodes. So a
compilation after a checked session never blames an edge (`Edit.session_blames_no_edge`).
-/

namespace Workflow

namespace Graph.Exclusive

variable {c : Catalog} {g : Graph} {edges : List Edge}

/-- No edge that the rules allow leads to where a compilation does not expect it to lead. -/
theorem guided (h : g.Exclusive c edges)
    (hspecial : ∀ kind t, c.get? kind = some t → t.family = .special →
      t.inputs = 0 ∨ kind = NodeType.catchName) : g.Guided c where
  ofState id n t hn hp ht e he := by
    rw [h.outgoing_eq, List.mem_filter, decide_eq_true_eq] at he
    obtain ⟨he, rfl⟩ := he
    obtain ⟨source, target, hs, htarget, -, hinput⟩ := h.inRange e he
    cases hn.symm.trans hs
    have hallowed := refusal?_eq_none_iff.1 (h.allowed e he _ _ hn htarget)
    rw [if_pos hp] at hallowed
    obtain ⟨t', ht', hiff⟩ := hallowed
    cases ht.symm.trans ht'
    -- The slot of the port is that of the error output exactly if the port is the error port.
    have hiff := TransitionRule.slot?_eq_some_error_iff.trans hiff
    split
    next herror => exact ⟨target, htarget, hiff.1 herror⟩
    next hslot =>
      have hcatch := Bool.eq_false_iff.2 fun hcatch => hslot (hiff.2 hcatch)
      exact ⟨target, htarget, h.isPrimitive_of_not_isCatch hspecial htarget hinput hcatch⟩
  ofSpecial id n hn hp e he := by
    rw [h.outgoing_eq, List.mem_filter, decide_eq_true_eq] at he
    obtain ⟨he, rfl⟩ := he
    obtain ⟨source, target, hs, htarget, -, hinput⟩ := h.inRange e he
    cases hn.symm.trans hs
    have hallowed := refusal?_eq_none_iff.1 (h.allowed e he _ _ hn htarget)
    rw [if_neg (Bool.eq_false_iff.1 hp)] at hallowed
    exact ⟨target, htarget, h.isPrimitive_of_not_isCatch hspecial htarget hinput hallowed⟩

end Graph.Exclusive

namespace Edit

variable {g : Graph}

/-- After any checked session a compilation that finds fault with the structure of the graph finds
it with the form of the start node: no edge leads to where it cannot lead, and no node stands where
a state is expected. -/
theorem session_blames_no_edge {start : Graph} (hstart : IsCheckedOrigin start)
    (h : Session .standard (fun g e => e.Fresh g ∧ e.IsChecked) start g) (fault : DefinitionFault)
    (hfault : (g.compile .standard).outcome = .error (.invalidDefinition fault)) :
    ∃ f, fault = .start f := by
  obtain ⟨edges, hedges⟩ := hstart.exclusive
  obtain ⟨edges, hg⟩ := Session.exclusive h hedges
  have hguided : g.Guided .standard := hg.guided fun kind t ht hf =>
    (special_of_standard ht hf).imp_left And.right
  have hblameless := Compile.compile_fails hguided hg.toHolds _ hfault
  cases fault with
  | start f => exact ⟨f, rfl⟩
  | noErrorOutput | wrongTarget | notState => exact absurd trivial hblameless

/-- Calls that draw the edges of a conditional and spoil the form of the start node. Two of the
edges are refused: one from the error output to a state, and one from another output to an
error-catch node. -/
def drawing : List Edit :=
  [.add (.ofNat 0) "start" [], .add (.ofNat 1) "switch" [], .add (.ofNat 2) "noop" [],
    .add (.ofNat 3) "error-catch" [], .rename (.ofNat 1) "a", .rename (.ofNat 2) "b",
    .connect ⟨.ofNat 0, 1, .ofNat 1, 1⟩, .connect ⟨.ofNat 1, 2, .ofNat 2, 1⟩,
    .connect ⟨.ofNat 1, 1, .ofNat 3, 1⟩, .connect ⟨.ofNat 1, 2, .ofNat 3, 1⟩,
    .connect ⟨.ofNat 1, 1, .ofNat 2, 1⟩, .setInitialized (.ofNat 1) true,
    .setInitialized (.ofNat 2) true, .setForm (.ofNat 0) [("type", .str "never")]]

theorem session_drawn_blames_no_edge :
    (run .standard (.empty .empty) drawing).edges =
        [⟨.ofNat 0, 1, .ofNat 1, 1⟩, ⟨.ofNat 1, 2, .ofNat 3, 1⟩, ⟨.ofNat 1, 1, .ofNat 2, 1⟩] ∧
      ∃ fault, ((run .standard (.empty .empty) drawing).compile .standard).outcome =
        .error (.invalidDefinition fault) ∧ ∃ f, fault = .start f := by
  have hallows : Allows .standard (fun g e => e.Fresh g ∧ e.IsChecked) (.empty .empty) drawing := by
    decide +kernel
  have hfault : ((run .standard (.empty .empty) drawing).compile .standard).outcome =
      .error (.invalidDefinition (.start (.unknownKind "never"))) := by decide +kernel
  exact ⟨by decide +kernel, _, hfault,
    session_blames_no_edge (.inl ⟨.empty, rfl⟩) (Session.run hallows) _ hfault⟩

/-- What is wrong with the edges that the calls of `drawing` do not add is what a compilation blames
when they are added unchecked; an entry edge to an error-catch node is blamed as well. -/
example :
    let compileWith (edits : List Edit) := ((run .standard (.empty .empty)
      (drawing.take 6 ++ edits ++ (drawing.drop 11).take 2)).compile .standard).outcome
    compileWith [.connect ⟨.ofNat 0, 1, .ofNat 1, 1⟩, .addEdge ⟨.ofNat 1, 2, .ofNat 2, 1⟩] =
        .error (.invalidDefinition (.wrongTarget 2 "a" "noop" (.state "b"))) ∧
      compileWith [.addEdge ⟨.ofNat 0, 1, .ofNat 3, 1⟩] =
        .error (.invalidDefinition (.notState (.anonymous "error-catch" (.ofNat 3)))) := by
  decide +kernel

end Edit

end Workflow
