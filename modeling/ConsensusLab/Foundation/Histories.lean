import ConsensusLab.Foundation.Reachability
import Mathlib.Data.List.Basic

/-!
# Runs and what is observed of them

Some properties are not about one state but about what a run has shown at different
times. A history is a state with all observations on the way to it. Observations are
related to each other if every state vouches for all earlier ones, in the sense that a
step observes only what is related to whatever its first state vouches for.
-/

namespace ConsensusLab.Foundation

variable {State Label Obs : Type*}

/-- A state, and what has been observed on the way to it, latest first. -/
structure History (State Obs : Type*) where
  state : State
  past : List Obs

/-- Take a step and note what is observed. -/
def History.step (step : State → Label → Option (State × List Obs)) (h : History State Obs) (l : Label) :
    Option (History State Obs) :=
  (step h.state l).map fun (s, seen) => { state := s, past := seen ++ h.past }

/-- The histories of allowed runs. -/
abbrev HistoryReachable (first : State → Prop) (allowed : State → Label → Prop)
    (step : State → Label → Option (State × List Obs)) : History State Obs → Prop :=
  Reachable (fun h => first h.state ∧ h.past = [])
    (LabelledStep (fun h l => allowed h.state l) (History.step step))

variable {first : State → Prop} {allowed : State → Label → Prop} {step : State → Label → Option (State × List Obs)}
  {h : History State Obs}

/-- What holds at first and is kept by every observed step holds of all histories. -/
theorem HistoryReachable.invariant {P : State → List Obs → Prop} (hfirst : ∀ s, first s → P s [])
    (hstep : ∀ s past l s' seen, P s past → allowed s l → step s l = some (s', seen) → P s' (seen ++ past))
    (run : HistoryReachable first allowed step h) : P h.state h.past := by
  refine Reachable.invariant (P := fun h : History State Obs => P h.state h.past) ?_ ?_ run
  · rintro ⟨s, past⟩ ⟨hs, rfl⟩
    exact hfirst s hs
  · rintro ⟨s, past⟩ h' _ hP ⟨l, hallowed, hnext⟩
    obtain ⟨⟨s', seen⟩, hobserved, rfl⟩ := Option.map_eq_some_iff.mp hnext
    exact hstep s past l s' seen hP hallowed hobserved

/-- Observations are related to all earlier ones if the states vouch for these. -/
theorem HistoryReachable.pairwise {P : State → Prop} {V : State → Obs → Prop} {R : Obs → Obs → Prop}
    (hfirst : ∀ s, first s → P s)
    (hstep : ∀ s l s' seen, P s → allowed s l → step s l = some (s', seen) →
      P s' ∧ (∀ o, V s o → V s' o) ∧ (∀ o ∈ seen, V s' o) ∧ seen.Pairwise R ∧
        ∀ o ∈ seen, ∀ o', V s o' → R o o')
    (run : HistoryReachable first allowed step h) : h.past.Pairwise R := by
  have hall : P h.state ∧ (∀ o ∈ h.past, V h.state o) ∧ h.past.Pairwise R := by
    refine HistoryReachable.invariant (P := fun s past => P s ∧ (∀ o ∈ past, V s o) ∧ past.Pairwise R) ?_ ?_ run
    · exact fun s hs => ⟨hfirst s hs, fun _ ho => absurd ho List.not_mem_nil, List.Pairwise.nil⟩
    · rintro s past l s' seen ⟨hinv, hpast, hrelated⟩ hallowed hobserved
      obtain ⟨hinv', hkept, hnew, hseen, hearlier⟩ := hstep s l s' seen hinv hallowed hobserved
      refine ⟨hinv', fun o ho => ?_, List.pairwise_append.mpr ⟨hseen, hrelated, fun o ho o' ho' => ?_⟩⟩
      · rcases List.mem_append.mp ho with hfresh | hold
        · exact hnew o hfresh
        · exact hkept o (hpast o hold)
      · exact hearlier o ho o' (hpast o' ho')
  exact hall.2.2

/-- Execute observed steps from a first state. -/
theorem exists_history_of_execute [∀ s l, Decidable (allowed s l)] {labels : List Label} {A : Type*}
    {f : History State Obs → A} {a : A} {s : State} (hs : first s)
    (hrun : (execute (fun h l => allowed h.state l) (History.step step) { state := s, past := [] } labels).map f =
      some a) : ∃ h, HistoryReachable first allowed step h ∧ f h = a :=
  exists_reachable_of_execute ⟨hs, rfl⟩ hrun

end ConsensusLab.Foundation
