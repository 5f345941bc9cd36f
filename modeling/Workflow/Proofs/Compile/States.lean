import Mathlib.Data.List.Pairwise
import Mathlib.Logic.Relation
import Workflow.Proofs.Compile.Expansion
import Workflow.Proofs.Graph.Consistent
import Workflow.Proofs.Lists
import Workflow.Proofs.NodeType.Slots
import Workflow.Proofs.Walk

/-!
# The states of a compiled document

`LeadsTo` is the relation that a compilation follows: from a state to the targets of its outputs
and, behind its error output, to the targets of the outputs of one error-catch node. The states of a
document are those that this relation reaches from the entry node and from the states that nothing
leads to, each once, and every name that is written is the name of one of them
(`compile_exact_states`).
-/

namespace Workflow.Compile

variable {T : Type} [NodeSpec T]

/-- `k` is the error-catch node that counts for `id`: the target of the oldest edge of its error
output, which is the one with the slot for errors. -/
def IsCatchOf (c : Catalog T) (g : Graph) (id k : NodeId) : Prop :=
  ∃ n t p e, g.node? id = some n ∧ c.get? n.kind = some t ∧ NodeSpec.slot? t p = some .error ∧
    (g.outgoing id).find? (·.output = p) = some e ∧ e.target = k

/-- One step of a compilation. -/
inductive LeadsTo (c : Catalog T) (g : Graph) (id : NodeId) : NodeId → Prop
  /-- To a target of an output other than the error output. -/
  | output {n : Node} {t : T} {e : Edge} :
      g.node? id = some n → c.get? n.kind = some t → e ∈ g.outgoing id →
      NodeSpec.slot? t e.output ≠ some .error → LeadsTo c g id e.target
  /-- To a target of an output of the error-catch node. -/
  | handler {k : NodeId} {e : Edge} :
      IsCatchOf c g id k → e ∈ g.outgoing k → LeadsTo c g id e.target

/-- A state that nothing leads to. -/
def IsRoot (g : Graph) (id : NodeId) : Prop :=
  (∃ n, g.node? id = some n ∧ n.isPrimitive = true) ∧ g.incoming id = []

/-- The states that nothing leads to, in the order of the graph. -/
def roots (g : Graph) : List NodeId :=
  (g.nodes.filter fun e => e.2.isPrimitive && (g.incoming e.1).isEmpty).map Prod.fst

theorem mem_roots {g : Graph} {id : NodeId} :
    id ∈ roots g ↔ ∃ n, (id, n) ∈ g.nodes ∧ n.isPrimitive = true ∧ g.incoming id = [] := by
  simp only [roots, List.mem_map, List.mem_filter, Bool.and_eq_true, List.isEmpty_iff]
  constructor
  · rintro ⟨⟨_, n⟩, ⟨hmem, hp, hi⟩, rfl⟩
    exact ⟨n, hmem, hp, hi⟩
  · rintro ⟨n, hmem, hp, hi⟩
    exact ⟨(id, n), ⟨hmem, hp, hi⟩, rfl⟩

theorem not_mem_roots_of_node? {g : Graph} (hg : g.Consistent) {id : NodeId} {n : Node}
    (hn : g.node? id = some n) (hp : n.isPrimitive = false) : id ∉ roots g := by
  intro hroot
  obtain ⟨m, hm, hp', -⟩ := mem_roots.1 hroot
  obtain rfl := Option.some.inj (hn.symm.trans (hg.mem_nodes_iff.1 hm))
  rw [hp] at hp'
  cases hp'

theorem filter_mem_roots {g : Graph} (hnd : (g.nodes.map Prod.fst).Nodup) :
    (g.nodes.map Prod.fst).filter (· ∈ roots g) = roots g := by
  rw [List.filter_map]
  refine congrArg (List.map Prod.fst) (List.filter_congr fun e he => Bool.eq_iff_iff.2 ?_)
  rw [Function.comp_apply, decide_eq_true_iff, Bool.and_eq_true, List.isEmpty_iff]
  refine mem_roots.trans ?_
  constructor
  · rintro ⟨n, hn, hp, hi⟩
    have hsame : (e.1, n) = e := List.inj_on_of_nodup_map hnd hn he rfl
    exact ⟨hsame ▸ hp, hi⟩
  · rintro ⟨hp, hi⟩
    exact ⟨e.2, he, hp, hi⟩

/-! ### What an expansion leads to -/

theorem mem_handlerFollowers {g : Graph} {id x : NodeId} {n : Node} (hn : g.node? id = some n) :
    x ∈ handlerFollowers g id ↔ ∃ e ∈ g.outgoing id, e.target = x := by
  have ho := Graph.outputsOf_eq hn
  simp only [handlerFollowers, ho, List.mem_flatMap, List.mem_map]
  constructor
  · rintro ⟨⟨p, es⟩, hmem, e, he, rfl⟩
    rw [Graph.mem_outputsOf ho hmem] at he
    exact ⟨e, List.mem_of_mem_filter he, rfl⟩
  · rintro ⟨e, he, rfl⟩
    exact ⟨_, Graph.exists_mem_outputsOf ho he, e, List.mem_filter.2 ⟨he, by simp⟩, rfl⟩

theorem mem_catchNodes_iff {c : Catalog T} {g : Graph} {id k : NodeId} {n : Node} {t : T}
    {outputs : List (Port × List Edge)} (hn : g.node? id = some n) (ht : c.get? n.kind = some t)
    (ho : g.outputsOf id = .ok outputs) :
    k ∈ catchNodes t outputs ↔ IsCatchOf c g id k := by
  simp only [catchNodes, List.mem_filterMap]
  constructor
  · rintro ⟨⟨p, es⟩, hmem, h⟩
    split at h
    next hs =>
      obtain ⟨e, he, rfl⟩ := Option.map_eq_some_iff.1 h
      rw [Graph.mem_outputsOf ho hmem, List.head?_filter] at he
      exact ⟨n, t, p, e, hn, ht, hs, he, rfl⟩
    next => cases h
  · rintro ⟨n', t', p, e, hn', ht', hp, he, rfl⟩
    cases hn.symm.trans hn'
    cases ht.symm.trans ht'
    have hout : e.output = p := by simpa using List.find?_some he
    subst hout
    refine ⟨_, Graph.exists_mem_outputsOf ho (List.mem_of_find?_eq_some he), ?_⟩
    rw [if_pos hp, List.head?_filter, he]
    rfl

theorem mem_followers_iff {c : Catalog T} {g : Graph} {id x : NodeId} {n : Node} {t : T}
    {outputs : List (Port × List Edge)} (hn : g.node? id = some n) (ht : c.get? n.kind = some t)
    (ho : g.outputsOf id = .ok outputs)
    (hcatch : ∀ k ∈ catchNodes t outputs, ∃ m, g.node? k = some m) :
    x ∈ followers g t outputs ↔ LeadsTo c g id x := by
  simp only [followers, List.mem_flatMap]
  constructor
  · rintro ⟨⟨p, es⟩, hmem, hx⟩
    have hes := Graph.mem_outputsOf ho hmem
    cases es with
    | nil => cases hx
    | cons e es =>
      by_cases hs : NodeSpec.slot? t p = some .error
      · simp only [hs, if_true] at hx
        have hk : e.target ∈ catchNodes t outputs := by
          refine List.mem_filterMap.2 ⟨_, hmem, ?_⟩
          rw [if_pos hs]
          rfl
        obtain ⟨m, hm⟩ := hcatch _ hk
        obtain ⟨f, hf, rfl⟩ := (mem_handlerFollowers hm).1 hx
        exact .handler ((mem_catchNodes_iff hn ht ho).1 hk) hf
      · simp only [hs, if_false] at hx
        obtain ⟨f, hf, rfl⟩ := List.mem_map.1 hx
        rw [hes] at hf
        obtain ⟨hf, hp⟩ := List.mem_filter.1 hf
        have hp := of_decide_eq_true hp
        exact .output hn ht hf (hp ▸ hs)
  · intro h
    cases h with
    | @output n' t' e hn' ht' he hp =>
      cases hn.symm.trans hn'
      cases ht.symm.trans ht'
      refine ⟨_, Graph.exists_mem_outputsOf ho he, ?_⟩
      have hmem : e ∈ (g.outgoing id).filter (·.output = e.output) :=
        List.mem_filter.2 ⟨he, by simp⟩
      cases hes : (g.outgoing id).filter (·.output = e.output) with
      | nil => rw [hes] at hmem; cases hmem
      | cons f fs =>
        simp only [hp, if_false]
        exact List.mem_map_of_mem (hes ▸ hmem)
    | @handler k e hk he =>
      have hk' := (mem_catchNodes_iff hn ht ho).2 hk
      obtain ⟨m, hm⟩ := hcatch k hk'
      obtain ⟨⟨p, es⟩, hmem, h⟩ := List.mem_filterMap.1 hk'
      refine ⟨_, hmem, ?_⟩
      split at h
      next hs =>
        obtain ⟨f, hf, rfl⟩ := Option.map_eq_some_iff.1 h
        cases es with
        | nil => cases hf
        | cons f' es =>
          cases hf
          simp only [hs, if_true]
          exact (mem_handlerFollowers hm).2 ⟨e, he, rfl⟩
      next => cases h

/-- The error-catch nodes of a state that was expanded exist. -/
theorem exists_node_of_forall₂ {c : Catalog T} {g : Graph} {name : String} {ks : List NodeId}
    {lists : List (List CatchEntry)} (h : List.Forall₂ (IsHandlerList c g · name) ks lists) :
    ∀ k ∈ ks, ∃ m, g.node? k = some m := by
  intro k hk
  obtain ⟨hs, -, n, -, -, -, -, hn, -⟩ := h.exists_of_mem_left hk
  exact ⟨n, hn⟩

/-- An expansion that ends with a state has the marks that `LeadsTo` tells. -/
theorem expand_leads_iff {c : Catalog T} {g : Graph} {id x : NodeId} {s : State}
    (h : (expand c g id).outcome = .ok s) :
    Walk.Leads (expand c g) id x ↔ LeadsTo c g id x := by
  have heq := expand_eq_ok_iff.1 (Traced.eq_of_outcome h)
  obtain ⟨⟨n, t, outputs, -, lists, hn, -, -, ht, ho, -, -, -, -, hl, -⟩,
    n', t', outputs', hn', ht', ho', htrace⟩ := heq
  cases hn.symm.trans hn'
  cases ht.symm.trans ht'
  cases ho.symm.trans ho'
  rw [Walk.Leads, htrace]
  exact mem_followers_iff hn ht ho (exists_node_of_forall₂ hl)

/-- A walk ends with one state for each node that it visited. -/
theorem forall₂_isStateOf {c : Catalog T} {g : Graph} {w : Walk NodeId State} {ids : List NodeId}
    (h : Walk.Grows (expand c g) .start w ids) : List.Forall₂ (IsStateOf c g) ids w.finished := by
  obtain ⟨states, hfin, hout⟩ := h.finished
  have hfin : w.finished = states := hfin
  rw [hfin]
  exact hout.imp fun _ _ hs => (expand_eq_ok_iff.1 (Traced.eq_of_outcome hs)).1

/-- What a visited node leads to is what `LeadsTo` tells. -/
theorem leads_iff_of_grows {c : Catalog T} {g : Graph} {w w' : Walk NodeId State}
    {ids : List NodeId} (h : Walk.Grows (expand c g) w w' ids) {x : NodeId} (hx : x ∈ ids)
    (y : NodeId) : Walk.Leads (expand c g) x y ↔ LeadsTo c g x y := by
  obtain ⟨s, hs⟩ := h.outcome_ok hx
  exact expand_leads_iff hs

/-! ### Checks -/

section

omit [NodeSpec T]

/-- Two nodes that both stand for a state have different names. -/
def NamesApart (a b : NodeId × Node) : Prop :=
  a.2.isPrimitive = true → b.2.isPrimitive = true → a.2.stateId ≠ b.2.stateId

instance : Std.Symm NamesApart := ⟨fun _ _ h hb ha => (h ha hb).symm⟩

theorem checkNames_cons {c : Catalog T} {seen : List String} {e : NodeId × Node}
    {rest : List (NodeId × Node)} :
    checkNames c seen (e :: rest) = .ok () ↔
      (∃ t, c.get? e.2.kind = some t) ∧
        (e.2.isPrimitive = false ∧ checkNames c seen rest = .ok () ∨
          e.2.isPrimitive = true ∧ ∃ name, e.2.stateId = some name ∧ name ∉ seen ∧
            checkNames c (name :: seen) rest = .ok ()) := by
  obtain ⟨id, n⟩ := e
  rw [checkNames]
  cases ht : c.get? n.kind with
  | none => simp [Catalog.lookup, ht, bind, Except.bind]
  | some t =>
    rw [Catalog.lookup_eq_ok_iff.2 ht]
    simp only [bind, Except.bind, Bool.not_eq_true']
    cases hp : n.isPrimitive with
    | false => simp
    | true =>
      cases hn : n.stateId with
      | none => simp
      | some name =>
        by_cases hs : name ∈ seen <;> simp [hs]

/-- The check passes when all types are known and no two states have the same name. -/
theorem checkNames_eq_ok_iff {c : Catalog T} {seen : List String} {es : List (NodeId × Node)} :
    checkNames c seen es = .ok () ↔
      (∀ e ∈ es, ∃ t, c.get? e.2.kind = some t) ∧
        (∀ e ∈ es, e.2.isPrimitive = true → ∃ name, e.2.stateId = some name ∧ name ∉ seen) ∧
        es.Pairwise NamesApart := by
  induction es generalizing seen with
  | nil => simp [checkNames]
  | cons e rest ih =>
    rw [checkNames_cons, List.pairwise_cons]
    constructor
    · rintro ⟨ht, ⟨hp, h⟩ | ⟨hp, name, hn, hseen, h⟩⟩
      · obtain ⟨htypes, hnames, hapart⟩ := ih.1 h
        refine ⟨List.forall_mem_cons.2 ⟨ht, htypes⟩, List.forall_mem_cons.2 ⟨?_, hnames⟩, ?_, hapart⟩
        · simp [hp]
        · intro b _ hp'
          simp [hp] at hp'
      · obtain ⟨htypes, hnames, hapart⟩ := ih.1 h
        refine ⟨List.forall_mem_cons.2 ⟨ht, htypes⟩, List.forall_mem_cons.2 ⟨?_, ?_⟩, ?_, hapart⟩
        · exact fun _ => ⟨name, hn, hseen⟩
        · intro b hb hpb
          obtain ⟨other, ho, hmem⟩ := hnames b hb hpb
          exact ⟨other, ho, fun h => hmem (List.mem_cons_of_mem _ h)⟩
        · intro b hb _ hpb heq
          obtain ⟨other, ho, hmem⟩ := hnames b hb hpb
          rw [hn, ho] at heq
          exact hmem (Option.some.inj heq ▸ List.mem_cons_self)
    · rintro ⟨htypes, hnames, hapart, hrest⟩
      obtain ⟨ht, htypes⟩ := List.forall_mem_cons.1 htypes
      obtain ⟨hname, hnames⟩ := List.forall_mem_cons.1 hnames
      refine ⟨ht, ?_⟩
      cases hp : e.2.isPrimitive with
      | false => exact .inl ⟨rfl, ih.2 ⟨htypes, hnames, hrest⟩⟩
      | true =>
        obtain ⟨name, hn, hseen⟩ := hname hp
        refine .inr ⟨rfl, name, hn, hseen, ih.2 ⟨htypes, ?_, hrest⟩⟩
        intro b hb hpb
        obtain ⟨other, ho, hmem⟩ := hnames b hb hpb
        refine ⟨other, ho, fun h => ?_⟩
        rcases List.mem_cons.1 h with rfl | h
        · exact hapart b hb hp hpb (hn.trans ho.symm)
        · exact hmem h

theorem validate_eq_ok_iff {c : Catalog T} {g : Graph} :
    validate c g = .ok () ↔
      (∀ e ∈ g.nodes, e.2.initialized = true) ∧ checkNames c [] g.nodes = .ok () := by
  unfold validate
  cases h : (g.nodes.filter fun e => !e.2.initialized).map fun e => e.2.label e.1 with
  | nil =>
    have hall : ∀ e ∈ g.nodes, e.2.initialized = true := by simpa using h
    exact ⟨fun hc => ⟨hall, hc⟩, fun hc => hc.2⟩
  | cons e rest =>
    refine iff_of_false nofun ?_
    rintro ⟨hall, -⟩
    have hnil : g.nodes.filter (fun e => !e.2.initialized) = [] := by simpa using hall
    rw [hnil] at h
    cases h

/-- When all forms are confirmed, the checks complain about what the names and types amount to. -/
theorem validate_eq_checkNames {c : Catalog T} {g : Graph}
    (h : ∀ e ∈ g.nodes, e.2.initialized = true) : validate c g = checkNames c [] g.nodes := by
  have hnone : (g.nodes.filter fun e => !e.2.initialized) = [] :=
    List.filter_eq_nil_iff.2 fun e he => by simp [h e he]
  rw [validate, hnone]
  rfl

end

theorem startOf_eq_ok_iff {c : Catalog T} {g : Graph} {start entry : NodeId} {b : Start} :
    startOf c g start entry = .ok b ↔
      ∃ n name t form, g.node? start = some n ∧ stateName g entry = .ok name ∧
        c.get? n.kind = some t ∧
        fieldsOfForm t NodeType.startName (NodeSpec.strip t n.form) = .ok form ∧
        Start.ofForm form name = .ok b := by
  unfold startOf
  constructor
  · intro h
    cases hn : g.node start with
    | error e => simp [hn, bind, Except.bind] at h
    | ok n =>
      cases hname : stateName g entry with
      | error e => simp [hn, hname, bind, Except.bind] at h
      | ok name =>
        cases ht : c.lookup n.kind with
        | error e => simp [hn, hname, ht, bind, Except.bind] at h
        | ok t =>
          cases hf : fieldsOfForm t NodeType.startName (NodeSpec.strip t n.form) with
          | error e => simp [hn, hname, ht, hf, bind, Except.bind] at h
          | ok form =>
            refine ⟨n, name, t, form, Graph.node_eq_ok_iff.1 hn, rfl,
              Catalog.lookup_eq_ok_iff.1 ht, hf, ?_⟩
            cases hs : Start.ofForm form name with
            | error e =>
              simp [hn, hname, ht, hf, hs, bind, Except.bind, throw, throwThe,
                MonadExceptOf.throw] at h
            | ok s => simpa [hn, hname, ht, hf, hs, bind, Except.bind, pure, Except.pure] using h
  · rintro ⟨n, name, t, form, hn, hname, ht, hf, hs⟩
    rw [Graph.node_eq_ok_iff.2 hn, hname]
    simp only [bind, Except.bind, Catalog.lookup_eq_ok_iff.2 ht, hf, hs, pure, Except.pure]

/-- The entry state of a start block is the one that it was made for. -/
theorem state_of_ofForm {form : Fields} {name : String} {b : Start}
    (h : Start.ofForm form name = .ok b) : b.state = some name := by
  unfold Start.ofForm at h
  cases hk : Start.kindOfForm form with
  | error e => simp [hk, bind, Except.bind] at h
  | ok kind =>
    simp only [hk, bind, Except.bind, pure, Except.pure, Except.ok.injEq] at h
    rw [← h]

/-! ### The walk -/

/-- What a visit from a state that nothing leads to adds. -/
theorem visitRoot_grows (c : Catalog T) (g : Graph) (w w' : Walk NodeId State) (e : NodeId × Node)
    (h : visitRoot c g w e = .ok w') :
    ∃ new, Walk.Grows (expand c g) w w' new ∧
      (∀ x, (e.2.isPrimitive = true ∧ g.incoming e.1 = [] ∧ e.1 = x) → x ∈ w'.visited) ∧
      ∀ x ∈ new, e.2.isPrimitive = true ∧ g.incoming e.1 = [] ∧
        Walk.Reaches (expand c g) e.1 x ∧ (x = e.1 ∨ Walk.Led (expand c g) x) := by
  unfold visitRoot at h
  split at h
  next hroot =>
    simp only [Bool.and_eq_true, decide_eq_true_eq, List.isEmpty_iff] at hroot
    obtain ⟨new, hg, hmust, hmay⟩ := Walk.visit_grows _ _ _ _ h
    exact ⟨new, hg, fun x hx => hmust x hx.2.2, fun x hx => ⟨hroot.1.1, hroot.2, hmay x hx⟩⟩
  next hroot =>
    cases h
    refine ⟨[], .refl w, ?_, nofun⟩
    rintro _ ⟨hp, hi, rfl⟩
    simp only [Bool.and_eq_true, decide_eq_true_eq, List.isEmpty_iff, hp, hi, true_and,
      and_true, not_not] at hroot
    exact hroot

theorem not_mem_roots_of_led {c : Catalog T} {g : Graph}
    (hled : ∀ x y, LeadsTo c g x y → y ∉ roots g) {x : NodeId}
    (h : Walk.Led (expand c g) x) : x ∉ roots g := by
  obtain ⟨v, s, hs, hvx⟩ := h
  exact hled v x ((expand_leads_iff hs).1 hvx)

/-- The walk over all states visits the entry node, every state that nothing leads to, and what
these lead to, each once. The states that nothing leads to keep their order. -/
theorem statesOf_grows {c : Catalog T} {g : Graph} {entry : NodeId} {w : Walk NodeId State}
    (h : statesOf c g entry = .ok w) :
    ∃ ids, Walk.Grows (expand c g) .start w ids ∧ entry ∈ ids ∧
      (∀ e ∈ g.nodes, e.2.isPrimitive = true → g.incoming e.1 = [] → e.1 ∈ ids) ∧
      (∀ x ∈ ids, Walk.Reaches (expand c g) entry x ∨
        ∃ e ∈ g.nodes, e.2.isPrimitive = true ∧ g.incoming e.1 = [] ∧
          Walk.Reaches (expand c g) e.1 x) ∧
      (entry ∉ roots g → (∀ x y, LeadsTo c g x y → y ∉ roots g) →
        (g.nodes.map Prod.fst).Nodup → ids.filter (· ∈ roots g) = roots g) := by
  unfold statesOf at h
  cases hv : visit c g .start entry with
  | error e => simp [hv, bind, Except.bind] at h
  | ok w₁ =>
    simp only [hv, bind, Except.bind] at h
    obtain ⟨first, hg₁, hentry, hmay₁⟩ := Walk.visit_grows _ _ _ _ hv
    obtain ⟨second, hg₂, hroots, hmay₂, horder⟩ := Walk.foldlM_grows (visitRoot_grows c g) _ _ _ h
    have hg := hg₁.reverse.trans hg₂
    have hmem : ∀ x, x ∈ w.visited → x ∈ first.reverse ++ second := fun _ => hg.mem_visited_iff.1
    refine ⟨first.reverse ++ second, hg, hmem _ ?_, ?_, ?_, fun hnot hled hnd => ?_⟩
    · exact (hg₂.mem_visited entry).2 (.inr (hentry entry rfl))
    · exact fun e he hp hi => hmem _ (hroots e he e.1 ⟨hp, hi, rfl⟩)
    · intro x hx
      rcases List.mem_append.1 hx with hx | hx
      · exact .inl (hmay₁ x (List.mem_reverse.1 hx)).1
      · obtain ⟨e, he, hp, hi, hr, -⟩ := hmay₂ x hx
        exact .inr ⟨e, he, hp, hi, hr⟩
    · -- The walk from the entry node meets no root, and the others meet one root each.
      have hfirst : ∀ x ∈ first, x ∉ roots g := by
        intro x hx
        rcases (hmay₁ x hx).2 with rfl | hx
        · exact hnot
        · exact not_mem_roots_of_led hled hx
      have hsecond : second.filter (· ∈ roots g) = (g.nodes.map Prod.fst).filter (· ∈ roots g) := by
        refine horder _ Prod.fst (fun e _ x hx hroot => ?_) (fun e he hroot => ?_) hnd
        · rcases hx.2.2.2 with hx | hx
          · exact hx
          · exact absurd (of_decide_eq_true hroot) (not_mem_roots_of_led hled hx)
        · have hroot := of_decide_eq_true hroot
          obtain ⟨n, hn, hp, hi⟩ := mem_roots.1 hroot
          have hsame : (e.1, n) = e := List.inj_on_of_nodup_map hnd hn he rfl
          refine ⟨⟨hsame ▸ hp, hi, rfl⟩, fun hvisited => ?_⟩
          rcases (hg₁.mem_visited _).1 hvisited with hx | hx
          · exact hfirst _ hx hroot
          · cases hx
      have hnil : first.reverse.filter (· ∈ roots g) = [] :=
        List.filter_eq_nil_iff.2 fun x hx => by simpa using hfirst x (List.mem_reverse.1 hx)
      rw [List.filter_append, hnil, hsecond, List.nil_append, filter_mem_roots hnd]

/-! ### The document -/

theorem compile_eq_ok_iff {c : Catalog T} {g : Graph} {trace : List Warning} {d : Document} :
    g.compile c = ⟨trace, .ok d⟩ ↔
      ∃ start e block w, validate c g = .ok () ∧ g.startNode? = some start ∧
        g.edgeOn? start 1 = some e ∧ startOf c g start e.target = .ok block ∧
        statesOf c g e.target = .ok w ∧ trace = dropped g w.visited ∧
        d = ⟨g.metadata.extra, g.metadata.functions, some block, w.finished⟩ := by
  unfold Graph.compile
  rw [Traced.liftM_bind_eq_ok_iff]
  constructor
  · rintro ⟨_, hv, h⟩
    split at h
    next start hs =>
      split at h
      next e he =>
        obtain ⟨block, hb, h⟩ := Traced.liftM_bind_eq_ok_iff.1 h
        obtain ⟨w, hw, h⟩ := Traced.liftM_bind_eq_ok_iff.1 h
        obtain ⟨rest, hrest, rfl⟩ := Traced.note_bind_eq_ok_iff.1 h
        obtain ⟨rfl, hd⟩ := Traced.mk.inj hrest
        exact ⟨start, e, block, w, hv, hs, he, hb, hw, List.append_nil _, (Except.ok.inj hd).symm⟩
      next => exact absurd h Traced.fail_ne_ok
    next => exact absurd h Traced.fail_ne_ok
  · rintro ⟨start, e, block, w, hv, hs, he, hb, hw, rfl, rfl⟩
    refine ⟨(), hv, ?_⟩
    simp only [hs, he]
    exact Traced.liftM_bind_eq_ok_iff.2 ⟨block, hb, Traced.liftM_bind_eq_ok_iff.2 ⟨w, hw,
      Traced.note_bind_eq_ok_iff.2 ⟨[], rfl, (List.append_nil _).symm⟩⟩⟩

/-- The compilation of a graph, from its walk: the walk ends with one state for each node that it
visits, and follows `LeadsTo` from the entry node and the roots. -/
theorem mem_ids_iff {c : Catalog T} {g : Graph} (hg : g.Labelled) {entry : NodeId}
    {w : Walk NodeId State} {ids : List NodeId} (hgrows : Walk.Grows (expand c g) .start w ids)
    (hentry : entry ∈ ids)
    (hroots : ∀ e ∈ g.nodes, e.2.isPrimitive = true → g.incoming e.1 = [] → e.1 ∈ ids)
    (hmay : ∀ x ∈ ids, Walk.Reaches (expand c g) entry x ∨
      ∃ e ∈ g.nodes, e.2.isPrimitive = true ∧ g.incoming e.1 = [] ∧
        Walk.Reaches (expand c g) e.1 x) (id : NodeId) :
    id ∈ ids ↔ (∃ n, g.node? id = some n ∧ n.isPrimitive = true) ∧
      ∃ root, (root = entry ∨ IsRoot g root) ∧ Relation.ReflTransGen (LeadsTo c g) root id := by
  have hstart : ∀ root, root = entry ∨ IsRoot g root → root ∈ ids := by
    rintro root (rfl | ⟨⟨n, hn, hp⟩, hi⟩)
    · exact hentry
    · exact hroots (root, n) (hg.mem_nodes hn) hp hi
  have hpath : ∀ root ∈ ids, ∀ x, Walk.Reaches (expand c g) root x ↔
      Relation.ReflTransGen (LeadsTo c g) root x := fun root hroot _ =>
    hgrows.reaches_iff (fun _ hx => leads_iff_of_grows hgrows hx) hroot
  -- A listed root was expanded, so its identifier finds a state, whatever node is listed with it.
  have hstate : ∀ x ∈ ids, ∃ n, g.node? x = some n ∧ n.isPrimitive = true := fun x hx =>
    let ⟨_, _, n, _, _, _, _, hn, hp, _⟩ := (forall₂_isStateOf hgrows).exists_of_mem_left hx
    ⟨n, hn, hp⟩
  constructor
  · intro hid
    refine ⟨hstate id hid, ?_⟩
    rcases hmay id hid with h | ⟨⟨root, n⟩, he, hp, hi, h⟩
    · exact ⟨entry, .inl rfl, (hpath entry hentry id).1 h⟩
    · have hroot := hroots _ he hp hi
      exact ⟨root, .inr ⟨hstate root hroot, hi⟩, (hpath root hroot id).1 h⟩
  · rintro ⟨-, root, hroot, h⟩
    have hmem := hstart root hroot
    exact hgrows.mem_of_reaches hmem ((hpath root hmem id).2 h)

theorem IsStateOf.stateName_eq {c : Catalog T} {g : Graph} {id : NodeId} {s : State}
    (h : IsStateOf c g id s) : stateName g id = .ok s.id := by
  obtain ⟨n, -, -, -, -, hn, hp, hid, -⟩ := h
  exact stateName_eq_ok_iff.2 ⟨n, hn, hp, hid⟩

/-- A name that is written for a node is that of the target of an edge that leaves another output
than the error output. -/
theorem exists_edge_of_writtenFor {c : Catalog T} {g : Graph} {id : NodeId}
    {w : TransitionSlot × String} (h : w ∈ writtenFor c g id) :
    ∃ n t e, g.node? id = some n ∧ c.get? n.kind = some t ∧ e ∈ g.outgoing id ∧
      NodeSpec.slot? t e.output ≠ some .error ∧ w.2 = nameOf g e.target := by
  unfold writtenFor at h
  split at h
  next n outputs hn ho =>
    split at h
    next t ht =>
      obtain ⟨⟨p, es⟩, hmem, h⟩ := List.mem_filterMap.1 h
      have hes := Graph.mem_outputsOf ho hmem
      unfold writtenBehind at h
      split at h
      next e rest s hes' hs =>
        split at h
        next => cases h
        next hne =>
          cases h
          have he : e ∈ (g.outgoing id).filter (·.output = p) := by
            rw [← hes, show es = e :: rest from hes']
            exact List.mem_cons_self
          obtain ⟨he, hp⟩ := List.mem_filter.1 he
          refine ⟨n, t, e, hn, ht, he, fun herr => hne ?_, rfl⟩
          rw [of_decide_eq_true hp] at herr
          exact Option.some.inj (hs.symm.trans herr)
      next => cases h
    next => cases h
  next => cases h

/-- A state with the given id is listed under the identifier. -/
def ListsState (g : Graph) (id : NodeId) (name : String) : Prop :=
  ∃ n, (id, n) ∈ g.nodes ∧ n.isPrimitive = true ∧ n.stateId = some name

theorem listsState_of_stateName {g : Graph} (hg : g.Labelled) {id : NodeId} {name : String}
    (h : stateName g id = .ok name) : ListsState g id name :=
  let ⟨n, hn, hp, hid⟩ := stateName_eq_ok_iff.1 h
  ⟨n, hg.mem_nodes hn, hp, hid⟩

/-- Where an identifier names one node, the states that are listed are those that are found. -/
theorem listsState_iff {g : Graph} (hg : g.Consistent) {id : NodeId} {name : String} :
    ListsState g id name ↔ stateName g id = .ok name :=
  (exists_congr fun _ => and_congr_left fun _ => hg.mem_nodes_iff).trans stateName_eq_ok_iff.symm

omit [NodeSpec T] in
/-- The states that a graph lists have different names when it passed the checks. -/
theorem eq_of_listsState {c : Catalog T} {g : Graph} (hvalid : validate c g = .ok ())
    {x y : NodeId} {name : String} (hx : ListsState g x name) (hy : ListsState g y name) :
    x = y := by
  obtain ⟨-, -, hapart⟩ := checkNames_eq_ok_iff.1 (validate_eq_ok_iff.1 hvalid).2
  obtain ⟨n, hn, hp, hid⟩ := hx
  obtain ⟨m, hm, hq, hid'⟩ := hy
  by_contra hne
  have hpair : (x, n) ≠ (y, m) := fun he => hne (congrArg Prod.fst he)
  exact hapart.forall hn hm hpair hp hq (hid.trans hid'.symm)

omit [NodeSpec T] in
/-- So have the states that it finds. -/
theorem eq_of_stateName {c : Catalog T} {g : Graph} (hg : g.Labelled)
    (hvalid : validate c g = .ok ()) {x y : NodeId} {name : String}
    (hx : stateName g x = .ok name) (hy : stateName g y = .ok name) : x = y :=
  eq_of_listsState hvalid (listsState_of_stateName hg hx) (listsState_of_stateName hg hy)

/-- No two states of a compiled document have the same id. -/
theorem nodup_names {c : Catalog T} {g : Graph} (hg : g.Labelled)
    (hvalid : validate c g = .ok ()) {ids : List NodeId} {states : List State}
    (hids : ids.Nodup) (h : List.Forall₂ (IsStateOf c g) ids states) :
    (states.map State.id).Nodup := by
  induction h with
  | nil => exact List.nodup_nil
  | @cons id s ids states hs hrest ih =>
    rw [List.nodup_cons] at hids
    rw [List.map_cons, List.nodup_cons]
    refine ⟨fun hmem => ?_, ih hids.2⟩
    obtain ⟨s', hs', heq⟩ := List.mem_map.1 hmem
    obtain ⟨id', hid', hstate⟩ := hrest.exists_of_mem_right hs'
    obtain rfl := eq_of_stateName hg hvalid hs.stateName_eq (heq ▸ hstate.stateName_eq)
    exact hids.1 hid'

/-- What a compilation walked over: the nodes of the states that it put into a document, in their
order. -/
structure Emits (c : Catalog T) (g : Graph) (d : Document) (entry : NodeId) (ids : List NodeId) :
    Prop where
  valid : validate c g = .ok ()
  /-- The start block is that of the start node, whose output leads to the entry state. -/
  start : ∃ start e block, g.startNode? = some start ∧ g.edgeOn? start 1 = some e ∧
    e.target = entry ∧ startOf c g start entry = .ok block ∧ d.start = some block
  nodup : ids.Nodup
  states : List.Forall₂ (IsStateOf c g) ids d.states
  entry_mem : entry ∈ ids
  mem_iff : ∀ id, id ∈ ids ↔ (∃ n, g.node? id = some n ∧ n.isPrimitive = true) ∧
    ∃ root, (root = entry ∨ IsRoot g root) ∧ Relation.ReflTransGen (LeadsTo c g) root id
  closed : ∀ id ∈ ids, ∀ x, LeadsTo c g id x → x ∈ ids
  /-- The states that nothing leads to keep their order. -/
  order : entry ∉ roots g → (∀ x y, LeadsTo c g x y → y ∉ roots g) →
    (g.nodes.map Prod.fst).Nodup → ids.filter (· ∈ roots g) = roots g
  walk : ∃ w, statesOf c g entry = .ok w ∧ w.finished = d.states
  metadata : g.metadata = ⟨d.functions, d.extra⟩

theorem emits_of_compile {c : Catalog T} {g : Graph} {d : Document} (hg : g.Labelled)
    (h : (g.compile c).outcome = .ok d) : ∃ entry ids, Emits c g d entry ids := by
  obtain ⟨start, e, block, w, hv, hs, he, hb, hw, -, rfl⟩ :=
    compile_eq_ok_iff.1 (Traced.eq_of_outcome h)
  obtain ⟨ids, hgrows, hentry, hroots, hmay, horder⟩ := statesOf_grows hw
  refine ⟨e.target, ids, hv, ⟨start, e, block, hs, he, rfl, hb, rfl⟩, hgrows.nodup,
    forall₂_isStateOf hgrows, hentry, mem_ids_iff hg hgrows hentry hroots hmay,
    fun id hid x hx => ?_, horder, ⟨w, hw, rfl⟩, rfl⟩
  exact hgrows.mem_of_reaches hid (.single ((leads_iff_of_grows hgrows hid x).2 hx))

namespace Emits

variable {c : Catalog T} {g : Graph} {d : Document} {entry : NodeId} {ids : List NodeId}

/-- The name of a node that was walked over is the id of a state. -/
theorem nameOf_mem (h : Emits c g d entry ids) {id : NodeId} (hid : id ∈ ids) :
    nameOf g id ∈ d.states.map State.id := by
  obtain ⟨s, hmem, hs⟩ := h.states.exists_of_mem_left hid
  rw [nameOf_of_stateName hs.stateName_eq]
  exact List.mem_map_of_mem hmem

theorem nodup_ids (h : Emits c g d entry ids) (hg : g.Labelled) :
    (d.states.map State.id).Nodup :=
  nodup_names hg h.valid h.nodup h.states

/-- The entry state that the start block names is a state. -/
theorem start_state (h : Emits c g d entry ids) :
    ∃ block, d.start = some block ∧ block.state = some (nameOf g entry) := by
  obtain ⟨start, e, block, -, -, rfl, hb, hd⟩ := h.start
  obtain ⟨n, name, t, form, -, hstate, -, -, hof⟩ := startOf_eq_ok_iff.1 hb
  exact ⟨block, hd, by rw [state_of_ofForm hof, nameOf_of_stateName hstate]⟩

end Emits

/-- A compiled document has one state for each primitive node that can be reached from the entry
node or from a state that nothing leads to, and no others. Its states have different ids, and each
name that is written from an edge, as the entry state, in a state or in an error handler, is one of
these ids. Neither the numbers of ports nor what an output may lead to matter for this, nor whether
an identifier was given to a second node; the graph only has to list the nodes that it finds, as it
does after any calls. -/
theorem compile_exact_states {c : Catalog T} {g : Graph} {d : Document} (hg : g.Labelled)
    (h : (g.compile c).outcome = .ok d) :
    ∃ start e ids, g.startNode? = some start ∧ g.edgeOn? start 1 = some e ∧ ids.Nodup ∧
      List.Forall₂ (IsStateOf c g) ids d.states ∧
      (∀ id, id ∈ ids ↔ (∃ n, g.node? id = some n ∧ n.isPrimitive = true) ∧
        ∃ root, (root = e.target ∨ IsRoot g root) ∧
          Relation.ReflTransGen (LeadsTo c g) root id) ∧
      (d.states.map State.id).Nodup ∧
      (∃ block name, d.start = some block ∧ block.state = some name ∧
        name ∈ d.states.map State.id) ∧
      ∀ id ∈ ids, (∀ w ∈ writtenFor c g id, w.2 ∈ d.states.map State.id) ∧
        ∀ k, IsCatchOf c g id k → ∀ w ∈ writtenFor c g k, w.2 ∈ d.states.map State.id := by
  obtain ⟨entry, ids, hemits⟩ := emits_of_compile hg h
  obtain ⟨block, hblock, hname⟩ := hemits.start_state
  obtain ⟨start, e, -, hs, he, rfl, -, -⟩ := hemits.start
  refine ⟨start, e, ids, hs, he, hemits.nodup, hemits.states, hemits.mem_iff, hemits.nodup_ids hg,
    ⟨block, _, hblock, hname, hemits.nameOf_mem hemits.entry_mem⟩, fun id hid => ⟨fun x hx => ?_,
    fun k hk x hx => ?_⟩⟩
  · obtain ⟨n, t, f, hn, ht, hf, hp, hxe⟩ := exists_edge_of_writtenFor hx
    rw [hxe]
    exact hemits.nameOf_mem (hemits.closed id hid _ (.output hn ht hf hp))
  · obtain ⟨-, -, f, -, -, hf, -, hxe⟩ := exists_edge_of_writtenFor hx
    rw [hxe]
    exact hemits.nameOf_mem (hemits.closed id hid _ (.handler hk hf))

/-- A node for a state without fields. -/
def emptyState (name : String) : Node :=
  { Node.ofType "noop" (NodeType.primitive .single) [] with
    stateId := some name
    initialized := true }

/-- A start node and two states that lead to each other. -/
def loopGraph : Graph :=
  { (((Graph.empty .empty).insert (.ofNat 0)
      (.ofType "start" (NodeType.special 0 1 .entry) [])).insert
      (.ofNat 1) (emptyState "a")).insert (.ofNat 2) (emptyState "b") with
    links := ((Arena.empty.insert ⟨0, 1, 1, 1⟩).insert ⟨1, 1, 2, 1⟩).insert ⟨2, 1, 1, 1⟩ }

theorem loopGraph_consistent : loopGraph.Consistent :=
  ((((Graph.consistent_empty .empty).insert (by decide) _).insert (by decide) _).insert
    (by decide) _).congr rfl rfl rfl

/-- The document of `loopGraph`. -/
def loopDocument : Document :=
  ⟨[], none, some ⟨none, some "a", []⟩,
    [⟨"a", "noop", [("transition", .str "b")], none⟩, ⟨"b", "noop", [("transition", .str "a")], none⟩]⟩

theorem compile_loopGraph_exact_states :
    (loopGraph.compile .standard).outcome = .ok loopDocument ∧
      ∃ ids, List.Forall₂ (IsStateOf .standard loopGraph) ids loopDocument.states ∧
        ∀ id ∈ ids, ∀ w ∈ writtenFor .standard loopGraph id, w.2 ∈ ["a", "b"] := by
  have h : (loopGraph.compile .standard).outcome = .ok loopDocument := by decide +kernel
  obtain ⟨-, -, ids, -, -, -, hstates, -, -, -, hnames⟩ := compile_exact_states
    loopGraph_consistent.labelled h
  exact ⟨h, ids, hstates, fun id hid => (hnames id hid).1⟩

end Workflow.Compile
