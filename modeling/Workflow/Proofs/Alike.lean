import Mathlib.Data.Option.Defs
import Workflow.Proofs.Walk

/-!
# Computations that end alike

Two computations end alike when they end with values that one relation pairs, or with errors that
another one pairs; traced computations have to leave marks that match as well. Sequences of
computations that end alike step by step end alike (`Except.Alike.bind`, `Except.alike_foldlM`), and
so do walks whose vertices are expanded alike (`Walk.visit_alike`).
-/

namespace List

variable {α β α' β' : Type} {S : α → α' → Prop} {as : List α} {as' : List α'}

/-- What is found first in lists that match matches. -/
theorem Forall₂.find?_rel (h : Forall₂ S as as') {p : α → Bool} {p' : α' → Bool}
    (hp : ∀ a a', S a a' → p a = p' a') : Option.Rel S (as.find? p) (as'.find? p') := by
  induction h with
  | nil => exact .none
  | @cons a a' _ _ ha _ ih =>
    rw [find?_cons, find?_cons, hp a a' ha]
    split
    · exact .some ha
    · exact ih

theorem Forall₂.filterMap_rel {T : β → β' → Prop} (h : Forall₂ S as as') {f : α → Option β}
    {f' : α' → Option β'} (hf : ∀ a a', S a a' → Option.Rel T (f a) (f' a')) :
    Forall₂ T (as.filterMap f) (as'.filterMap f') :=
  List.rel_filterMap (fun {a a'} => hf a a') h

end List

theorem Option.Rel.eq {α : Type} {a? a?' : Option α} (h : Option.Rel Eq a? a?') : a? = a?' := by
  cases h with
  | none => rfl
  | some ha => exact congrArg Option.some ha

theorem Option.Rel.map {α β α' β' : Type} {S : α → α' → Prop} {T : β → β' → Prop} {a? : Option α}
    {a?' : Option α'} (h : Option.Rel S a? a?') {f : α → β} {f' : α' → β'}
    (hf : ∀ a a', S a a' → T (f a) (f' a')) : Option.Rel T (a?.map f) (a?'.map f') := by
  cases h with
  | none => exact .none
  | some ha => exact .some (hf _ _ ha)

namespace Except

variable {ε ε' α α' β β' : Type} {E : ε → ε' → Prop} {A : α → α' → Prop} {B : β → β' → Prop}

/-- Two outcomes are alike: values that `A` pairs, or errors that `E` pairs. -/
inductive Alike (E : ε → ε' → Prop) (A : α → α' → Prop) : Except ε α → Except ε' α' → Prop
  | ok {a : α} {a' : α'} : A a a' → Alike E A (.ok a) (.ok a')
  | error {e : ε} {e' : ε'} : E e e' → Alike E A (.error e) (.error e')

theorem Alike.bind {x : Except ε α} {x' : Except ε' α'} {f : α → Except ε β}
    {f' : α' → Except ε' β'} (hx : Alike E A x x') (hf : ∀ a a', A a a' → Alike E B (f a) (f' a')) :
    Alike E B (x >>= f) (x' >>= f') := by
  cases hx with
  | ok ha => exact hf _ _ ha
  | error he => exact .error he

/-- One outcome is like itself. -/
theorem alike_self {E : ε → ε → Prop} (hE : ∀ e, E e e) (x : Except ε α) : Alike E Eq x x := by
  cases x with
  | ok a => exact .ok rfl
  | error e => exact .error (hE e)

/-- A check that fails on both sides or on none. -/
theorem alike_check {c c' : Prop} [Decidable c] [Decidable c'] (hc : c ↔ c') {e : ε} {e' : ε'}
    (he : E e e') {x : Except ε α} {x' : Except ε' α'} (hx : Alike E A x x') :
    Alike E A (if c then (do throw e; x) else x) (if c' then (do throw e'; x') else x') := by
  by_cases h : c
  · rw [if_pos h, if_pos (hc.1 h)]
    exact .error he
  · rw [if_neg h, if_neg (hc.not.1 h)]
    exact hx

theorem alike_foldlM {f : β → α → Except ε β} {f' : β' → α' → Except ε' β'} {as : List α}
    {as' : List α'} (has : List.Forall₂ A as as')
    (hstep : ∀ b b' a a', B b b' → A a a' → Alike E B (f b a) (f' b' a')) {b : β} {b' : β'}
    (hb : B b b') : Alike E B (as.foldlM f b) (as'.foldlM f' b') := by
  induction has generalizing b b' with
  | nil => exact .ok hb
  | cons ha _ ih =>
    rw [List.foldlM_cons, List.foldlM_cons]
    exact (hstep _ _ _ _ hb ha).bind fun _ _ hb => ih hb

end Except

namespace Workflow

namespace Traced

variable {τ τ' ε ε' α α' β β' : Type} {T : τ → τ' → Prop} {E : ε → ε' → Prop} {A : α → α' → Prop}
  {B : β → β' → Prop}

/-- Two traced computations are alike: their marks match, and they end alike. -/
structure Alike (T : τ → τ' → Prop) (E : ε → ε' → Prop) (A : α → α' → Prop) (x : Traced τ ε α)
    (x' : Traced τ' ε' α') : Prop where
  trace : List.Forall₂ T x.trace x'.trace
  outcome : Except.Alike E A x.outcome x'.outcome

theorem alike_pure {a : α} {a' : α'} (h : A a a') :
    Alike T E A (pure a : Traced τ ε α) (pure a' : Traced τ' ε' α') := ⟨.nil, .ok h⟩

theorem alike_fail {e : ε} {e' : ε'} (h : E e e') :
    Alike T E A (fail e : Traced τ ε α) (fail e' : Traced τ' ε' α') := ⟨.nil, .error h⟩

theorem alike_note {marks : List τ} {marks' : List τ'} (h : List.Forall₂ T marks marks') :
    Alike T E Eq (note marks : Traced τ ε Unit) (note marks' : Traced τ' ε' Unit) := ⟨h, .ok rfl⟩

theorem alike_liftM {x : Except ε α} {x' : Except ε' α'} (h : Except.Alike E A x x') :
    Alike T E A (liftM x : Traced τ ε α) (liftM x' : Traced τ' ε' α') := ⟨.nil, h⟩

theorem Alike.bind {x : Traced τ ε α} {x' : Traced τ' ε' α'} {f : α → Traced τ ε β}
    {f' : α' → Traced τ' ε' β'} (hx : Alike T E A x x')
    (hf : ∀ a a', A a a' → Alike T E B (f a) (f' a')) : Alike T E B (x >>= f) (x' >>= f') := by
  obtain ⟨trace, outcome⟩ := x
  obtain ⟨trace', outcome'⟩ := x'
  obtain ⟨ht, ho⟩ := hx
  cases ho with
  | ok ha => exact ⟨List.rel_append ht (hf _ _ ha).trace, (hf _ _ ha).outcome⟩
  | error he => exact ⟨ht, .error he⟩

theorem alike_foldlM {f : β → α → Traced τ ε β} {f' : β' → α' → Traced τ' ε' β'} {as : List α}
    {as' : List α'} (has : List.Forall₂ A as as')
    (hstep : ∀ b b' a a', B b b' → A a a' → Alike T E B (f b a) (f' b' a')) {b : β} {b' : β'}
    (hb : B b b') : Alike T E B (as.foldlM f b) (as'.foldlM f' b') := by
  induction has generalizing b b' with
  | nil => exact alike_pure hb
  | cons ha _ ih =>
    rw [List.foldlM_cons, List.foldlM_cons]
    exact (hstep _ _ _ _ hb ha).bind fun _ _ hb => ih hb

end Traced

/-- Vertices that a relation pairs, each with one other, are visited alike when they are expanded
alike. -/
theorem Walk.visit_alike {ν ν' α α' ε ε' : Type} [DecidableEq ν] [DecidableEq ν']
    {R : ν → ν' → Prop} {S : α → α' → Prop} {E : ε → ε' → Prop} {expand : ν → Traced ν ε α}
    {expand' : ν' → Traced ν' ε' α'} {exhausted : ε} {exhausted' : ε'} (hR : Relator.BiUnique R)
    (hexpand : ∀ v v', R v v' → Traced.Alike R E S (expand v) (expand' v'))
    (hexhausted : E exhausted exhausted') (fuel : Nat) {w : Walk ν α} {w' : Walk ν' α'}
    (hw : Matches R S w w') {v : ν} {v' : ν'} (hv : R v v') :
    Except.Alike E (Matches R S) (visit expand exhausted fuel w v)
      (visit expand' exhausted' fuel w' v') := by
  induction fuel generalizing w w' v v' with
  | zero => exact .error hexhausted
  | succ fuel ih =>
    have hiff : v ∈ w.visited ↔ v' ∈ w'.visited := List.rel_mem hR hv hw.visited
    -- Both walks stop here or both go on, so they mark the same place and use up the same fuel.
    by_cases hmem : v ∈ w.visited
    · rw [visit_of_mem _ _ _ hmem, visit_of_mem _ _ _ (hiff.1 hmem)]
      exact .ok hw
    · obtain ⟨htrace, houtcome⟩ := hexpand v v' hv
      have hmark : Matches R S { w with visited := v :: w.visited }
          { w' with visited := v' :: w'.visited } := ⟨.cons hv hw.visited, hw.finished⟩
      rw [visit, visit, if_neg hmem, if_neg (hiff.not.1 hmem)]
      refine (Except.alike_foldlM htrace (fun _ _ _ _ hw hv => ih hw hv) hmark).bind
        fun w₁ w₁' hw₁ => ?_
      exact houtcome.bind fun a a' ha =>
        .ok ⟨hw₁.visited, List.rel_append hw₁.finished (.cons ha .nil)⟩

end Workflow
