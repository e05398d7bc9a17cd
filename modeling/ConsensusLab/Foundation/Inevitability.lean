import Mathlib.Data.Nat.Notation

/-!
# What is bound to happen

A transition system need not be fair, or even deterministic, for something to be bound to
happen in it: it suffices that it cannot stop before and that it cannot go on for ever.
The rule below takes a rank that every step lowers, and a step for every state that is
not at the goal yet.
-/

namespace ConsensusLab.Foundation

variable {State : Type*} {step : State → State → Prop} {goal : State → Prop}

/-- However steps are taken, they lead to the goal within a budget, and never stop before. -/
inductive InevitableWithin (step : State → State → Prop) (goal : State → Prop) : ℕ → State → Prop
  | reached {budget : ℕ} {s : State} (h : goal s) : InevitableWithin step goal budget s
  | next {budget : ℕ} {s : State} (hsome : ∃ s', step s s')
      (hall : ∀ s', step s s' → InevitableWithin step goal budget s') : InevitableWithin step goal (budget + 1) s

/-- States with a rank that every step lowers reach the goal within their rank, if each of them that is not at the
goal can take a step. -/
theorem InevitableWithin.of_rank {P : State → Prop} {r : State → ℕ}
    (hsome : ∀ s, P s → ¬goal s → ∃ s', step s s')
    (hall : ∀ s s', P s → ¬goal s → step s s' → P s' ∧ r s' < r s) {s : State} (h : P s) :
    InevitableWithin step goal (r s) s := by
  have hbudget : ∀ budget s, P s → r s ≤ budget → InevitableWithin step goal budget s := by
    intro budget
    induction budget with
    | zero =>
      intro s h hrank
      by_cases hgoal : goal s
      · exact .reached hgoal
      · -- a step would lower the rank below zero
        obtain ⟨s', hstep⟩ := hsome s h hgoal
        have hlower := (hall s s' h hgoal hstep).2
        omega
    | succ budget ih =>
      intro s h hrank
      by_cases hgoal : goal s
      · exact .reached hgoal
      · refine .next (hsome s h hgoal) fun s' hstep => ?_
        obtain ⟨h', hlower⟩ := hall s s' h hgoal hstep
        exact ih s' h' (by omega)
  exact hbudget (r s) s h (Nat.le_refl _)

end ConsensusLab.Foundation
