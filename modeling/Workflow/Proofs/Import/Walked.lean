import Workflow.Proofs.Compile.Order
import Workflow.Proofs.Import.Reproduced

/-!
# Graphs that are walked alike

When a graph reproduces another one, a state has to be followed by the same states in both, in the
same order (`Reproduces.trace_matches`), and the same names are written for it
(`Reproduces.writtenFor_eq`). Both are told port by port: `SameTargets` compares what one output
leads to, and the ports of a node are listed in order whatever their edges are.
-/

namespace Workflow.Compile

/-- Two nodes stand for states with the same id. -/
def SameState (g g' : Graph) (x x' : NodeId) : Prop :=
  ∃ name, stateName g x = .ok name ∧ stateName g' x' = .ok name

/-- The nodes that an output leads to. -/
def targetsAt (g : Graph) (id : NodeId) (p : Port) : List NodeId :=
  ((g.outgoing id).filter (·.output = p)).map Edge.target

/-- One output of each of two nodes leads to the same states. -/
def SameTargets (g g' : Graph) (x x' : NodeId) (p : Port) : Prop :=
  List.Forall₂ (SameState g g') (targetsAt g x p) (targetsAt g' x' p)

/-- No output of a node has two edges. -/
def Single (g : Graph) (id : NodeId) : Prop := ((g.outgoing id).map Edge.output).Nodup

variable {g g' : Graph} {x x' k k' : NodeId} {p : Port} {T : Type} [NodeSpec T]
  {t : T} {outputs outputs' : List (Port × List Edge)}

/-! ### Outputs with one edge -/

theorem Single.filter_eq (h : Single g x) {e : Edge} (he : e ∈ g.outgoing x) :
    (g.outgoing x).filter (·.output = e.output) = [e] := by
  have hnd : ((g.outgoing x).filter (·.output = e.output)).Nodup := (List.Nodup.of_map _ h).filter _
  refine List.perm_singleton.1 ((List.perm_ext_iff_of_nodup hnd (List.nodup_singleton e)).2
    fun f => ?_)
  rw [List.mem_filter, List.mem_singleton, decide_eq_true_iff]
  constructor
  · exact fun hf => List.inj_on_of_nodup_map h hf.1 he hf.2
  · rintro rfl
    exact ⟨he, rfl⟩

theorem Single.targetsAt_eq (h : Single g x) {e : Edge} (he : e ∈ g.outgoing x) :
    targetsAt g x e.output = [e.target] := by
  rw [targetsAt, h.filter_eq he]
  rfl

theorem targetsAt_eq_nil_iff : targetsAt g x p = [] ↔ ∀ e ∈ g.outgoing x, e.output ≠ p := by
  rw [targetsAt, List.map_eq_nil_iff, List.filter_eq_nil_iff]
  simp

/-- Outputs that lead to states of the same names lead to the same states. -/
theorem SameTargets.of_joins (hx : Single g x) (hx' : Single g' x')
    (hfit : ∀ e ∈ g.outgoing x, e.output = p → ∃ name, stateName g e.target = .ok name)
    (hfit' : ∀ e ∈ g'.outgoing x', e.output = p → ∃ name, stateName g' e.target = .ok name)
    (hjoins : ∀ name, Joins g' x' p name ↔ Joins g x p name) : SameTargets g g' x x' p := by
  unfold SameTargets
  by_cases hedge : ∃ e ∈ g.outgoing x, e.output = p
  · obtain ⟨e, he, hp⟩ := hedge
    obtain ⟨name, hname⟩ := hfit e he hp
    obtain ⟨e', he', hp', hname'⟩ := (hjoins name).2 ⟨e, he, hp, hname⟩
    rw [← hp, hx.targetsAt_eq he, hp, ← hp', hx'.targetsAt_eq he']
    exact .cons ⟨name, hname, hname'⟩ .nil
  · have hnil : targetsAt g x p = [] :=
      targetsAt_eq_nil_iff.2 fun e he hp => hedge ⟨e, he, hp⟩
    have hnil' : targetsAt g' x' p = [] := by
      refine targetsAt_eq_nil_iff.2 fun e he hp => hedge ?_
      obtain ⟨name, hname⟩ := hfit' e he hp
      obtain ⟨f, hf, hfp, -⟩ := (hjoins name).1 ⟨e, he, hp, hname⟩
      exact ⟨f, hf, hfp⟩
    rw [hnil, hnil']
    exact .nil

/-! ### All outputs -/

/-- The edges of the outputs of a node, port by port. -/
theorem exists_ports (ho : g.outputsOf x = .ok outputs) : ∃ ports : List Port,
    ports.Pairwise (· < ·) ∧ (∀ e ∈ g.outgoing x, e.output ∈ ports) ∧
      outputs = ports.map fun p => (p, (g.outgoing x).filter (·.output = p)) := by
  obtain ⟨n, -, rfl⟩ := Graph.node?_of_outputsOf ho
  exact ⟨_, Graph.pairwise_listedPorts _ _ _,
    fun e he => Graph.mem_listedPorts.2 (.inr ⟨e, he, rfl⟩), Graph.byPort_eq_map _ _ _⟩

/-- Something is told only of outputs that have an edge. -/
theorem mem_ports_of_ne_nil {α : Type} {F : Port × List Edge → List α} (hF : ∀ p, F (p, []) = [])
    {ports : List Port} (hports : ∀ e ∈ g.outgoing x, e.output ∈ ports)
    (h : F (p, (g.outgoing x).filter (·.output = p)) ≠ []) : p ∈ ports := by
  cases hes : (g.outgoing x).filter (·.output = p) with
  | nil => exact absurd (by rw [hes]; exact hF p) h
  | cons e rest =>
    have he : e ∈ (g.outgoing x).filter (·.output = p) := hes ▸ List.mem_cons_self
    obtain ⟨he, hp⟩ := List.mem_filter.1 he
    exact of_decide_eq_true hp ▸ hports e he

/-- What is told of the outputs of two nodes matches when it does so port by port, as long as
nothing is told of an output without edges. -/
theorem outputs_matches {α β : Type} {R : α → β → Prop} (ho : g.outputsOf x = .ok outputs)
    (ho' : g'.outputsOf x' = .ok outputs') {F : Port × List Edge → List α}
    {G : Port × List Edge → List β} (hF : ∀ p, F (p, []) = []) (hG : ∀ p, G (p, []) = [])
    (h : ∀ p, List.Forall₂ R (F (p, (g.outgoing x).filter (·.output = p)))
      (G (p, (g'.outgoing x').filter (·.output = p)))) :
    List.Forall₂ R (outputs.flatMap F) (outputs'.flatMap G) := by
  obtain ⟨ports, hsorted, hports, rfl⟩ := exists_ports ho
  obtain ⟨ports', hsorted', hports', rfl⟩ := exists_ports ho'
  rw [List.flatMap_map, List.flatMap_map]
  exact List.Forall₂.flatMap_sorted hsorted hsorted' (fun _ => mem_ports_of_ne_nil hF hports)
    (fun _ => mem_ports_of_ne_nil hG hports') h

theorem handlerFollowers_matches {n n' : Node} (hn : g.node? k = some n)
    (hn' : g'.node? k' = some n') (h : ∀ p, SameTargets g g' k k' p) :
    List.Forall₂ (SameState g g') (handlerFollowers g k) (handlerFollowers g' k') := by
  have ho := Graph.outputsOf_eq hn
  have ho' := Graph.outputsOf_eq hn'
  simp only [handlerFollowers, ho, ho']
  exact outputs_matches ho ho' (fun _ => rfl) (fun _ => rfl) h

/-- An output that leads to the same states has the same name written for it. -/
theorem writtenBehind_eq {es es' : List Edge}
    (h : List.Forall₂ (SameState g g') (es.map Edge.target) (es'.map Edge.target)) :
    writtenBehind g t (p, es) = writtenBehind g' t (p, es') := by
  cases es with
  | nil =>
    obtain rfl := List.map_eq_nil_iff.1 (List.forall₂_nil_left_iff.1 h)
    rfl
  | cons e rest =>
    cases es' with
    | nil => cases h
    | cons e' rest' =>
      obtain ⟨⟨name, hname, hname'⟩, -⟩ := List.forall₂_cons.1 h
      have hsame : nameOf g e.target = nameOf g' e'.target :=
        (nameOf_of_stateName hname).trans (nameOf_of_stateName hname').symm
      cases hs : NodeSpec.slot? t p with
      | none => simp only [writtenBehind, hs]
      | some s => simp only [writtenBehind, hs, hsame]

theorem writtenBehind_of_error (g : Graph) (h : NodeSpec.slot? t p = some .error)
    (es : List Edge) : writtenBehind g t (p, es) = none := by
  cases es <;> simp [writtenBehind, h]

/-- The same names are written for nodes whose outputs lead to the same states. -/
theorem written_eq (ho : g.outputsOf x = .ok outputs) (ho' : g'.outputsOf x' = .ok outputs')
    (h : ∀ p, NodeSpec.slot? t p ≠ some .error → SameTargets g g' x x' p) :
    written g' t outputs' = written g t outputs := by
  rw [written, written, List.filterMap_eq_flatMap_toList, List.filterMap_eq_flatMap_toList, eq_comm,
    ← List.forall₂_eq_eq_eq]
  refine outputs_matches ho ho' (fun _ => rfl) (fun _ => rfl) fun p => ?_
  rw [List.forall₂_eq_eq_eq]
  refine congrArg Option.toList ?_
  by_cases herr : NodeSpec.slot? t p = some .error
  · rw [writtenBehind_of_error g herr, writtenBehind_of_error g' herr]
  · exact writtenBehind_eq (h p herr)

theorem followers_of_slot_ne {es : List Edge} (h : NodeSpec.slot? t p ≠ some .error) :
    followers g t [(p, es)] = es.map Edge.target := by
  cases es <;> simp [followers, h]

theorem followers_of_error (h : NodeSpec.slot? t p = some .error) (e : Edge) (es : List Edge) :
    followers g t [(p, e :: es)] = handlerFollowers g e.target := by
  rw [followers_cons_of_error h]
  exact List.append_nil _

/-- The same states have to follow when this is so behind the error output and the other outputs
lead to the same states. -/
theorem followers_matches (ho : g.outputsOf x = .ok outputs) (ho' : g'.outputsOf x' = .ok outputs')
    (h : ∀ p, NodeSpec.slot? t p ≠ some .error → SameTargets g g' x x' p)
    (herror : ∀ p, NodeSpec.slot? t p = some .error → List.Forall₂ (SameState g g')
      (followers g t [(p, (g.outgoing x).filter (·.output = p))])
      (followers g' t [(p, (g'.outgoing x').filter (·.output = p))])) :
    List.Forall₂ (SameState g g') (followers g t outputs) (followers g' t outputs') := by
  have hsplit : ∀ (g : Graph) (outputs : List (Port × List Edge)),
      followers g t outputs = outputs.flatMap fun output => followers g t [output] := by
    intro g outputs
    simp [followers]
  rw [hsplit g, hsplit g']
  refine outputs_matches ho ho' (fun _ => rfl) (fun _ => rfl) fun p => ?_
  by_cases herr : NodeSpec.slot? t p = some .error
  · exact herror p herr
  · rw [followers_of_slot_ne herr, followers_of_slot_ne herr]
    exact h p herr

/-! ### Nodes of states -/

section

variable {e : Edge}

/-- An output other than the error output leads to a state. -/
theorem OutputsFit.exists_stateName (h : OutputsFit g t outputs) (ho : g.outputsOf x = .ok outputs)
    (hsingle : Single g x) (he : e ∈ g.outgoing x)
    (herr : NodeSpec.slot? t e.output ≠ some .error) :
    ∃ name, stateName g e.target = .ok name := by
  have hmem := Graph.exists_mem_outputsOf ho he
  rw [hsingle.filter_eq he] at hmem
  rcases h _ hmem e [] rfl with ⟨hslot, -⟩ | ⟨hname, -⟩
  · exact absurd hslot herr
  · exact hname

/-- An output of an error-catch node leads to a state. -/
theorem IsHandlerList.exists_stateName {owner : String} {hs : List CatchEntry} {n : Node}
    (h : IsHandlerList .standard g k owner hs) (hsingle : Single g k) (hn : g.node? k = some n)
    (hcatch : n.isCatch = true) (he : e ∈ g.outgoing k) :
    ∃ name, stateName g e.target = .ok name := by
  obtain ⟨outputs, -, ho, hfit, -⟩ := h.exists_form hn (kind_of_isCatch hcatch)
  have hmem := Graph.exists_mem_outputsOf ho he
  rw [hsingle.filter_eq he] at hmem
  exact (hfit _ hmem e [] rfl).1

/-- The edge of the error output of a state leads to its error-catch node. -/
theorem IsStateOf.catches {s : State} (h : IsStateOf .standard g x s) (hsingle : Single g x)
    {n : Node} {t : NodeType} (hn : g.node? x = some n) (ht : Catalog.standard.get? n.kind = some t)
    (he : e ∈ g.outgoing x) (herr : NodeSpec.slot? t e.output = some .error) :
    Catches g x e.target := by
  have hcatch : IsCatchOf .standard g x e.target := by
    refine ⟨n, t, e.output, e, hn, ht, herr, ?_, rfl⟩
    rw [← List.head?_filter, hsingle.filter_eq he]
    rfl
  exact ⟨hcatch, h.isCatch hcatch⟩

theorem Catches.followers_eq (h : Catches g x k) (hsingle : Single g x) {n : Node} {t : NodeType}
    (hn : g.node? x = some n) (ht : Catalog.standard.get? n.kind = some t)
    (herr : NodeSpec.slot? t p = some .error) :
    followers g t [(p, (g.outgoing x).filter (·.output = p))]
      = handlerFollowers g k := by
  obtain ⟨⟨n', t', q, e, hn', ht', herr', he, rfl⟩, -⟩ := h
  obtain rfl := Option.some.inj (hn.symm.trans hn')
  obtain rfl := Option.some.inj (ht.symm.trans ht')
  obtain rfl := Option.some.inj ((TransitionRule.slot?_eq_some_error_iff.1 herr).symm.trans
    (TransitionRule.slot?_eq_some_error_iff.1 herr'))
  have hout : e.output = p := by simpa using List.find?_some he
  rw [← hout, hsingle.filter_eq (List.mem_of_find?_eq_some he), hout, followers_of_error herr]

/-- Behind an error-catch node without error handlers, no state has to follow. -/
theorem Catches.handlerFollowers_eq_nil {s : State} {m : Node} (h : Catches g x k) (hg : g.Orderly)
    (hs : IsStateOf .standard g x s) (hm : g.node? k = some m)
    (hempty : TransitionSlot.itemsOf m.form "catch" = []) : handlerFollowers g k = [] := by
  obtain ⟨hof, m', hm', hcatch⟩ := h
  obtain rfl := Option.some.inj (hm.symm.trans hm')
  obtain ⟨hlist, hhandlers, -⟩ := hs.exists_handlerList hof
  have hnil : hlist = [] := by
    rw [← List.length_eq_zero_iff, hhandlers.length_eq hm (kind_of_isCatch hcatch), hempty]
    rfl
  subst hnil
  have hnone : g.outgoing k = [] := by
    refine List.eq_nil_iff_forall_not_mem.2 fun f hf => ?_
    obtain ⟨name, hname⟩ := hhandlers.exists_stateName (hg.single k) hm hcatch hf
    have htargets := (Emits.mem_handler_targets_iff hg hs hof hhandlers).2 ⟨f, hf, rfl, hname⟩
    cases htargets
  refine List.eq_nil_iff_forall_not_mem.2 fun y hy => ?_
  obtain ⟨f, hf, -⟩ := (mem_handlerFollowers hm).1 hy
  rw [hnone] at hf
  cases hf

end

namespace Reproduces

variable {names : List String} {name : String} {s s' : State} {n n' : Node} {t : NodeType}

/-- An output of a state leads to the same states in both graphs. -/
theorem sameTargets (h : Reproduces g g' names) (hname : name ∈ names)
    (hx : stateName g x = .ok name) (hx' : stateName g' x' = .ok name) (hsingle : Single g x)
    (hsingle' : Single g' x') (ho : g.outputsOf x = .ok outputs)
    (ho' : g'.outputsOf x' = .ok outputs') (hfit : OutputsFit g t outputs)
    (hfit' : OutputsFit g' t outputs') (herr : NodeSpec.slot? t p ≠ some .error) :
    SameTargets g g' x x' p := by
  refine .of_joins hsingle hsingle' (fun e he hp => ?_) (fun e he hp => ?_)
    (h.edges name hname x x' hx hx' p)
  · exact hfit.exists_stateName ho hsingle he (hp ▸ herr)
  · exact hfit'.exists_stateName ho' hsingle' he (hp ▸ herr)

/-- The same names are written in both graphs. -/
theorem writtenFor_eq (h : Reproduces g g' names) (hname : name ∈ names)
    (hx : stateName g x = .ok name) (hx' : stateName g' x' = .ok name) (hsingle : Single g x)
    (hsingle' : Single g' x') (hn : g.node? x = some n) (hn' : g'.node? x' = some n')
    (hkind : n'.kind = n.kind) (ht : Catalog.standard.get? n.kind = some t)
    (ho : g.outputsOf x = .ok outputs) (ho' : g'.outputsOf x' = .ok outputs')
    (hfit : OutputsFit g t outputs) (hfit' : OutputsFit g' t outputs') :
    writtenFor .standard g' x' = writtenFor .standard g x := by
  rw [Compile.writtenFor_eq hn ht ho, Compile.writtenFor_eq hn' (hkind ▸ ht) ho']
  exact written_eq ho ho' fun p => h.sameTargets hname hx hx' hsingle hsingle' ho ho' hfit hfit'

/-- Behind the error output, the same states have to follow in both graphs. An error-catch node
without error handlers is left out when the document is imported, but nothing follows it. -/
theorem handlers_match (h : Reproduces g g' names) (hg : g.Orderly) (hsingle' : ∀ id, Single g' id)
    (hname : name ∈ names) (hx : stateName g x = .ok name) (hx' : stateName g' x' = .ok name)
    (hs : IsStateOf .standard g x s) (hs' : IsStateOf .standard g' x' s')
    (hn : g.node? x = some n) (hn' : g'.node? x' = some n')
    (ht : Catalog.standard.get? n.kind = some t) (ht' : Catalog.standard.get? n'.kind = some t)
    (herr : NodeSpec.slot? t p = some .error) : List.Forall₂ (SameState g g')
      (followers g t [(p, (g.outgoing x).filter (·.output = p))])
      (followers g' t [(p, (g'.outgoing x').filter (·.output = p))]) := by
  have hcatches := h.catches name hname x x' hx hx'
  by_cases hcaught : ∃ k', Catches g' x' k'
  · obtain ⟨k, m, hk, hm, -⟩ := hcatches.1 hcaught
    obtain ⟨k', hk'⟩ := hcaught
    rw [hk.followers_eq (hg.single x) hn ht herr, hk'.followers_eq (hsingle' x') hn' ht' herr]
    have hcatch := hk
    have hcatch' := hk'
    obtain ⟨hof, m₁, hm₁, hmcatch⟩ := hcatch
    obtain ⟨hof', m', hm', hmcatch'⟩ := hcatch'
    obtain rfl := Option.some.inj (hm.symm.trans hm₁)
    obtain ⟨_, hlist, -⟩ := hs.exists_handlerList hof
    obtain ⟨_, hlist', -⟩ := hs'.exists_handlerList hof'
    refine handlerFollowers_matches hm hm' fun q => .of_joins (hg.single k) (hsingle' k')
      (fun e he _ => hlist.exists_stateName (hg.single k) hm hmcatch he)
      (fun e he _ => hlist'.exists_stateName (hsingle' k') hm' hmcatch' he)
      (h.handled name hname x x' hx hx' k k' hk hk' q)
  · -- Nothing follows in the new graph, so the old one has at most error handlers that are empty.
    have hnil' : (g'.outgoing x').filter (·.output = p) = [] := by
      refine List.filter_eq_nil_iff.2 fun e he hp => hcaught ⟨e.target, ?_⟩
      obtain rfl := of_decide_eq_true hp
      exact hs'.catches (hsingle' x') hn' ht' he herr
    have hnil : followers g t [(p, (g.outgoing x).filter (·.output = p))] = [] := by
      cases hes : (g.outgoing x).filter (·.output = p) with
      | nil => rfl
      | cons e rest =>
        have hmem : e ∈ (g.outgoing x).filter (·.output = p) := hes ▸ List.mem_cons_self
        obtain ⟨he, hp⟩ := List.mem_filter.1 hmem
        obtain rfl := of_decide_eq_true hp
        have hk := hs.catches (hg.single x) hn ht he herr
        rw [← hes, hk.followers_eq (hg.single x) hn ht herr]
        obtain ⟨m, hm, -⟩ := hk.2
        refine hk.handlerFollowers_eq_nil hg hs hm ?_
        by_contra hne
        exact hcaught (hcatches.2 ⟨e.target, m, hk, hm, hne⟩)
    rw [hnil, hnil']
    exact .nil

/-- The same states have to follow a state in both graphs, in the same order. -/
theorem trace_matches (h : Reproduces g g' names) (hg : g.Orderly) (hsingle' : ∀ id, Single g' id)
    (hname : name ∈ names) (hx : stateName g x = .ok name) (hx' : stateName g' x' = .ok name)
    (hs : IsStateOf .standard g x s) (hs' : IsStateOf .standard g' x' s')
    (hkind : s'.kind = s.kind) :
    List.Forall₂ (SameState g g') (expand .standard g x).trace (expand .standard g' x').trace := by
  have hstate := hs
  have hstate' := hs'
  obtain ⟨n, t, outputs, -, -, hn, -, -, ht, ho, hfit, -, -, hk, -⟩ := hstate
  obtain ⟨n', t', outputs', -, -, hn', -, -, ht', ho', hfit', -, -, hk', -⟩ := hstate'
  obtain rfl : t = t' := by
    rw [← hk', hkind, hk] at ht'
    exact Option.some.inj (ht.symm.trans ht')
  rw [expand_eq_ok_iff.2 ⟨hs, n, t, outputs, hn, ht, ho, rfl⟩,
    expand_eq_ok_iff.2 ⟨hs', n', t, outputs', hn', ht', ho', rfl⟩]
  refine followers_matches ho ho' (fun p herr => ?_) fun p herr => ?_
  · exact h.sameTargets hname hx hx' (hg.single x) (hsingle' x') ho ho' hfit hfit' herr
  · exact h.handlers_match hg hsingle' hname hx hx' hs hs' hn hn' ht ht' herr

end Reproduces

end Workflow.Compile
