import Mathlib.Logic.Relation

/-!
# Reachable states, invariants and simulations

A transition system is given by a predicate on its first states and a step relation.
The rules below are the only inductions over runs in the development: an invariant is
established once and kept by every step, a larger step relation reaches at least as
much, a simulation turns concrete runs into abstract ones, and executing labelled steps
leads to reachable states.
-/

namespace ConsensusLab.Foundation

open Relation

variable {State : Type*}

/-- The states a run can reach from its first state. -/
inductive Reachable (first : State → Prop) (step : State → State → Prop) : State → Prop
  | first {s : State} (h : first s) : Reachable first step s
  | next {s s' : State} (run : Reachable first step s) (h : step s s') : Reachable first step s'

/-- What holds at first and is kept by every step taken from a reachable state holds throughout. -/
theorem Reachable.invariant {first : State → Prop} {step : State → State → Prop} {P : State → Prop}
    (hfirst : ∀ s, first s → P s)
    (hstep : ∀ s s', Reachable first step s → P s → step s s' → P s')
    {s : State} (run : Reachable first step s) : P s := by
  induction run with
  | first h => exact hfirst _ h
  | next run h ih => exact hstep _ _ run ih h

section Execution

variable {Label : Type*}

/-- A labelled step that is allowed in the current state. -/
def LabelledStep (allowed : State → Label → Prop) (step : State → Label → Option State) (s s' : State) : Prop :=
  ∃ l, allowed s l ∧ step s l = some s'

/-- Execute labelled steps, as long as each is allowed and possible. -/
def execute (allowed : State → Label → Prop) [∀ s l, Decidable (allowed s l)]
    (step : State → Label → Option State) (s : State) : List Label → Option State
  | [] => some s
  | l :: rest => if allowed s l then (step s l).bind fun s' => execute allowed step s' rest else none

variable {allowed : State → Label → Prop} [∀ s l, Decidable (allowed s l)]
  {step : State → Label → Option State} {first : State → Prop}

/-- Executing steps leads to reachable states. -/
theorem Reachable.execute {labels : List Label} {s s' : State}
    (run : Reachable first (LabelledStep allowed step) s)
    (h : Foundation.execute allowed step s labels = some s') :
    Reachable first (LabelledStep allowed step) s' := by
  induction labels generalizing s with
  | nil =>
    cases h
    exact run
  | cons l rest ih =>
    simp only [Foundation.execute] at h
    split at h
    · obtain ⟨s₁, hstep, hrest⟩ := Option.bind_eq_some_iff.mp h
      exact ih (.next run ⟨l, ‹_›, hstep⟩) hrest
    · cases h

/-- What executing steps from a first state computes is computed of a reachable state. -/
theorem exists_reachable_of_execute {labels : List Label} {A : Type*} {f : State → A} {a : A} {s : State}
    (hs : first s) (h : (execute allowed step s labels).map f = some a) :
    ∃ s', Reachable first (LabelledStep allowed step) s' ∧ f s' = a := by
  obtain ⟨s', hrun, hf⟩ := Option.map_eq_some_iff.mp h
  exact ⟨s', (Reachable.first hs).execute hrun, hf⟩

end Execution

/-- Allowing more steps reaches at least the same states. -/
theorem Reachable.mono {first : State → Prop} {step step' : State → State → Prop}
    (hsub : ∀ s s', step s s' → step' s s') {s : State} (run : Reachable first step s) :
    Reachable first step' s := by
  induction run with
  | first h => exact .first h
  | next _ h ih => exact .next ih (hsub _ _ h)

/-- A run may be extended by finitely many further steps. -/
theorem Reachable.trans {first : State → Prop} {step : State → State → Prop} {s s' : State}
    (run : Reachable first step s) (more : ReflTransGen step s s') : Reachable first step s' := by
  induction more with
  | refl => exact run
  | tail _ h ih => exact .next ih h

/-- A relation that holds at first, and that every concrete step restores after finitely many
abstract steps, relates every reachable concrete state to a reachable abstract one. -/
theorem Reachable.simulate {Abstract : Type*} {first : State → Prop} {step : State → State → Prop}
    {afirst : Abstract → Prop} {astep : Abstract → Abstract → Prop} {R : State → Abstract → Prop}
    (hfirst : ∀ s, first s → ∃ a, afirst a ∧ R s a)
    (hstep : ∀ s s' a, Reachable afirst astep a → R s a → step s s' →
      ∃ a', ReflTransGen astep a a' ∧ R s' a')
    {s : State} (run : Reachable first step s) : ∃ a, Reachable afirst astep a ∧ R s a := by
  induction run with
  | first h =>
    obtain ⟨a, ha, hR⟩ := hfirst _ h
    exact ⟨a, .first ha, hR⟩
  | next _ h ih =>
    obtain ⟨a, ha, hR⟩ := ih
    obtain ⟨a', hsteps, hR'⟩ := hstep _ _ a ha hR h
    exact ⟨a', ha.trans hsteps, hR'⟩

/-- The same matching along a path: from related states, a concrete path is followed by an abstract
one that ends in a related state. -/
theorem simulate_path {Abstract : Type*} {step : State → State → Prop}
    {afirst : Abstract → Prop} {astep : Abstract → Abstract → Prop} {R : State → Abstract → Prop}
    (hstep : ∀ s s' a, Reachable afirst astep a → R s a → step s s' →
      ∃ a', ReflTransGen astep a a' ∧ R s' a')
    {s s' : State} {a : Abstract} (ha : Reachable afirst astep a) (hR : R s a)
    (path : ReflTransGen step s s') : ∃ a', ReflTransGen astep a a' ∧ R s' a' := by
  induction path with
  | refl => exact ⟨a, .refl, hR⟩
  | tail _ h ih =>
    obtain ⟨b, hab, hb⟩ := ih
    obtain ⟨b', hbb', hb'⟩ := hstep _ _ b (ha.trans hab) hb h
    exact ⟨b', hab.trans hbb', hb'⟩

/-- A path along which the view of every participant but one stays the same. -/
structure LocalPath {Id View : Type*} (step : State → State → Prop) (view : State → Id → View) (v : Id)
    (s s' : State) : Prop where
  path : ReflTransGen step s s'
  others : ∀ w, w ≠ v → view s' w = view s w

variable {Id View : Type*} {step : State → State → Prop} {view : State → Id → View} {v : Id}

/-- Staying in place. -/
theorem LocalPath.refl (s : State) : LocalPath step view v s s :=
  ⟨.refl, fun _ _ => rfl⟩

/-- One step that others do not see. -/
theorem LocalPath.single {s s' : State} (hstep : step s s') (hothers : ∀ w, w ≠ v → view s' w = view s w) :
    LocalPath step view v s s' :=
  ⟨.single hstep, hothers⟩

/-- One path after another. -/
theorem LocalPath.trans {s s' s'' : State} (h : LocalPath step view v s s')
    (h' : LocalPath step view v s' s'') : LocalPath step view v s s'' :=
  ⟨h.path.trans h'.path, fun w hw => (h'.others w hw).trans (h.others w hw)⟩

end ConsensusLab.Foundation
