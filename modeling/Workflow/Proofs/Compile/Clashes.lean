import Workflow.Proofs.Compile.Failures

/-!
# Two states of one id

A compilation asks for the ids of states again and again, but it complains about two states of one id
only when it checks the nodes: nothing behind the check does (`MayArise.noClash`). So there is no such
complaint about a graph in which no two states have the same id (`compile_noClash`), whatever else may
be wrong with the graph.
-/

namespace Workflow

/-- The node stands for the state with the given id. -/
def Graph.StandsFor (g : Graph) (id : NodeId) (name : String) : Prop :=
  ∃ n, g.node? id = some n ∧ n.isPrimitive = true ∧ n.stateId = some name

/-- No two nodes stand for states of one id. -/
def Graph.NamesDiffer (g : Graph) : Prop :=
  ∀ id other name, g.StandsFor id name → g.StandsFor other name → id = other

namespace Compile

open Except

variable {T : Type} [NodeSpec T] {c : Catalog T} {g : Graph}

omit [NodeSpec T] in
/-- The check of the names finds no two states of one id when there are none. -/
theorem checkNames_noClash {seen : List String} {nodes : List (NodeId × Node)}
    (hseen : ∀ e ∈ nodes, e.2.isPrimitive = true → ∀ name, e.2.stateId = some name → name ∉ seen)
    (hnodes : nodes.Pairwise fun a b => a.2.isPrimitive = true → b.2.isPrimitive = true →
      ∀ name, a.2.stateId = some name → b.2.stateId ≠ some name) :
    (checkNames c seen nodes).Fails Error.NoClash := by
  induction nodes generalizing seen with
  | nil => exact fails_ok ()
  | cons e rest ih =>
    obtain ⟨hfirst, hrest⟩ := List.pairwise_cons.1 hnodes
    obtain ⟨hname, hnames⟩ := List.forall_mem_cons.1 hseen
    refine (lookup_fails nofun).bind fun _ _ => ?_
    split
    next => exact ih hnames hrest
    next hp =>
      have hp : e.2.isPrimitive = true := by simpa using hp
      split
      next => exact fails_error nofun
      next name hid =>
        rw [if_neg (hname hp name hid)]
        refine ih (fun b hb hpb other hother hmem => ?_) hrest
        rcases List.mem_cons.1 hmem with rfl | hmem
        · exact hfirst b hb hp hpb other hid hother
        · exact hnames b hb hpb other hother hmem

omit [NodeSpec T] in
theorem validate_noClash (hg : g.Consistent) (h : g.NamesDiffer) :
    (validate c g).Fails Error.NoClash := by
  unfold validate
  split
  next =>
    refine checkNames_noClash (fun _ _ _ _ _ => List.not_mem_nil) ?_
    refine (List.pairwise_map.1 hg.nodup_ids).imp_of_mem fun ha hb hne hpa hpb name hna hnb => hne ?_
    exact h _ _ name ⟨_, hg.mem_nodes_iff.1 ha, hpa, hna⟩ ⟨_, hg.mem_nodes_iff.1 hb, hpb, hnb⟩
  next => exact fails_error nofun

/-- A compilation never complains about two states of one id when there are none. -/
theorem compile_noClash {edges : List Edge} (hg : g.Holds edges) (h : g.NamesDiffer) :
    (g.compile c).outcome.Fails Error.NoClash :=
  (compile_mayArise hg).mono fun e he => he.elim (validate_noClash hg.consistent h e) (·.noClash)

end Compile

end Workflow
