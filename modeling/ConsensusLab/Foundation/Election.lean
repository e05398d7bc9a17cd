import ConsensusLab.Foundation.Quorum
import ConsensusLab.Foundation.Reachability
import Mathlib.Logic.Function.Basic
import Mathlib.Order.Basic

/-!
# Terms, ballots and single leaders

The election half of a term-based protocol, over any linear order of terms. A
participant moves to a later term on its own account (`poll`, casting its own ballot)
or on somebody else's (`observe`), casts at most one ballot in each term (`grant`),
and wins a term only with a quorum of ballots for it (`win`). Giving up an office is
always allowed (`demote`); it also stands for a restart, since the term and the
ballots are what a participant must not forget.

The table `leader` records who has ever won each term. It never changes an entry, so
one statement covers leaders at the same time and at different times.
-/

namespace ConsensusLab.Foundation

/-- What a participant is currently doing. -/
inductive Standing
  | follower
  | candidate
  | leader
  deriving DecidableEq, Repr

/-- Terms and standings of all participants, every ballot cast, and the winners so far. -/
structure ElectionState (Id Term : Type*) where
  term : Id → Term
  standing : Id → Standing
  ballot : Term → Id → Option Id
  leader : Term → Option Id

variable {Id Term : Type*} [LinearOrder Term]

/-- Everybody follows in one common first term in which nobody has voted or won. -/
def ElectionState.First (s : ElectionState Id Term) : Prop :=
  (∀ v, s.standing v = .follower) ∧ (∀ t v, s.ballot t v = none) ∧ ∀ t, s.leader t = none

/-- What the ballots on record say about terms, candidates and winners. -/
structure ElectionInvariant (quorums : QuorumSystem Id) (s : ElectionState Id Term) : Prop where
  ballot_le : ∀ t v, s.ballot t v ≠ none → t ≤ s.term v
  own_ballot : ∀ v, s.standing v ≠ .follower → s.ballot (s.term v) v = some v
  not_yet_leader : ∀ v, s.standing v = .candidate → s.leader (s.term v) ≠ some v
  in_office : ∀ v, s.standing v = .leader → s.leader (s.term v) = some v
  elected : ∀ t c, s.leader t = some c →
    t ≤ s.term c ∧ ∃ Q, quorums.IsQuorum Q ∧ ∀ v ∈ Q, s.ballot t v = some c

/-- The invariant holds before any election. -/
theorem ElectionState.First.invariant {quorums : QuorumSystem Id} {s : ElectionState Id Term}
    (h : s.First) : ElectionInvariant quorums s where
  ballot_le t v hb := absurd (h.2.1 t v) hb
  own_ballot v hv := absurd (h.1 v) hv
  not_yet_leader v hv := by rw [h.1 v] at hv; cases hv
  in_office v hv := by rw [h.1 v] at hv; cases hv
  elected t c hl := by rw [h.2.2 t] at hl; cases hl

/-- A quorum of ballots for a candidate leaves no room for another winner of the same term: the two
quorums would share a voter, and nobody has two ballots in a term. -/
theorem ElectionInvariant.vacant {quorums : QuorumSystem Id} {s : ElectionState Id Term}
    (h : ElectionInvariant quorums s) {c : Id} {Q : Finset Id} (hstanding : s.standing c = .candidate)
    (hQ : quorums.IsQuorum Q) (hvotes : ∀ v ∈ Q, s.ballot (s.term c) v = some c) :
    s.leader (s.term c) = none := by
  cases hl : s.leader (s.term c) with
  | none => rfl
  | some d =>
    obtain ⟨_, R, hR, hballots⟩ := h.elected _ _ hl
    obtain ⟨v, hvQ, hvR⟩ := quorums.meet hQ hR
    have hsame : some c = some d := (hvotes v hvQ).symm.trans (hballots v hvR)
    rw [← hsame] at hl
    exact absurd hl (h.not_yet_leader c hstanding)

/-- Nobody has voted in a term above its own. -/
theorem ElectionInvariant.ballot_above {quorums : QuorumSystem Id} {s : ElectionState Id Term}
    (h : ElectionInvariant quorums s) {v : Id} {t : Term} (hterm : s.term v < t) :
    s.ballot t v = none := by
  by_contra hb
  exact absurd (h.ballot_le t v hb) (not_le_of_gt hterm)

variable [DecidableEq Id]

/-- Change the entry of one participant in one term. -/
def setAt {A : Type*} (table : Term → Id → A) (t : Term) (v : Id) (a : A) : Term → Id → A :=
  fun u w => if u = t ∧ w = v then a else table u w

/-- The changed entry. -/
@[simp] theorem setAt_self {A : Type*} (table : Term → Id → A) (t : Term) (v : Id) (a : A) :
    setAt table t v a t v = a := by simp [setAt]

/-- The entries that did not change. -/
theorem setAt_of_ne {A : Type*} (table : Term → Id → A) {t u : Term} {v w : Id} (a : A)
    (h : ¬(u = t ∧ w = v)) : setAt table t v a u w = table u w := if_neg h

/-- An entry that is set to what it was. -/
theorem setAt_eq_self {A : Type*} (table : Term → Id → A) (t : Term) (v : Id) : setAt table t v (table t v) = table := by
  funext u w
  by_cases h : u = t ∧ w = v
  · rw [h.1, h.2, setAt_self]
  · rw [setAt_of_ne _ _ h]

/-- A cast ballot stays on record when the only ballot it could overwrite has the same content. -/
theorem setAt_ballot_of_some {ballot : Term → Id → Option Id} {t u : Term} {v w c d : Id}
    (hopen : ballot t v = none ∨ ballot t v = some c) (h : ballot u w = some d) :
    setAt ballot t v (some c) u w = some d := by
  by_cases hcast : u = t ∧ w = v
  · obtain ⟨rfl, rfl⟩ := hcast
    rcases hopen with hnone | hsame
    · rw [hnone] at h
      cases h
    · rw [hsame] at h
      rw [setAt_self, h]
  · rw [setAt_of_ne ballot _ hcast, h]

/-- One step of the election protocol. -/
inductive ElectionStep (quorums : QuorumSystem Id) : ElectionState Id Term → ElectionState Id Term → Prop
  | poll (s : ElectionState Id Term) (c : Id) (t : Term) (next : Standing)
      (hterm : s.term c < t) (hnext : next ≠ .leader) :
      ElectionStep quorums s { s with
        term := Function.update s.term c t
        standing := Function.update s.standing c next
        ballot := setAt s.ballot t c (some c) }
  | observe (s : ElectionState Id Term) (v : Id) (t : Term) (hterm : s.term v < t) :
      ElectionStep quorums s { s with
        term := Function.update s.term v t
        standing := Function.update s.standing v .follower }
  | grant (s : ElectionState Id Term) (v c : Id)
      (hopen : s.ballot (s.term v) v = none ∨ s.ballot (s.term v) v = some c) :
      ElectionStep quorums s { s with ballot := setAt s.ballot (s.term v) v (some c) }
  | win (s : ElectionState Id Term) (c : Id) (Q : Finset Id) (hstanding : s.standing c = .candidate)
      (hQ : quorums.IsQuorum Q) (hvotes : ∀ v ∈ Q, s.ballot (s.term c) v = some c) :
      ElectionStep quorums s { s with
        standing := Function.update s.standing c .leader
        leader := Function.update s.leader (s.term c) (some c) }
  | demote (s : ElectionState Id Term) (v : Id) :
      ElectionStep quorums s { s with standing := Function.update s.standing v .follower }

/-- Raising one participant's term keeps the bound on its ballots. -/
theorem le_update_term {term : Id → Term} {c v : Id} {t u : Term} (hterm : term c < t)
    (h : u ≤ term v) : u ≤ Function.update term c t v := by
  by_cases hv : v = c
  · subst v
    rw [Function.update_self]
    exact h.trans hterm.le
  · rwa [Function.update_of_ne hv]

/-- Moving a participant to a later term cannot disturb offices or candidacies of the others. -/
theorem ElectionInvariant.raise {quorums : QuorumSystem Id} {s : ElectionState Id Term}
    (h : ElectionInvariant quorums s) {c : Id} {t : Term} (hterm : s.term c < t) (next : Standing)
    (hnext : next ≠ .leader) (ballot : Term → Id → Option Id)
    (hkeep : ∀ u w d, s.ballot u w = some d → ballot u w = some d)
    (hnew : ∀ u w, ballot u w ≠ none → s.ballot u w ≠ none ∨ (u = t ∧ w = c))
    (hown : next = .candidate → ballot t c = some c) :
    ElectionInvariant quorums { s with
      term := Function.update s.term c t
      standing := Function.update s.standing c next
      ballot := ballot } where
  ballot_le u w hb := by
    change u ≤ Function.update s.term c t w
    rcases hnew u w hb with hold | ⟨rfl, rfl⟩
    · exact le_update_term hterm (h.ballot_le u w hold)
    · rw [Function.update_self]
  own_ballot v hv := by
    change Function.update s.standing c next v ≠ .follower at hv
    change ballot (Function.update s.term c t v) v = some v
    by_cases hvc : v = c
    · subst v
      rw [Function.update_self] at hv ⊢
      cases next with
      | follower => exact absurd rfl hv
      | candidate => exact hown rfl
      | leader => exact absurd rfl hnext
    · rw [Function.update_of_ne hvc] at hv ⊢
      exact hkeep _ _ _ (h.own_ballot v hv)
  not_yet_leader v hv := by
    change Function.update s.standing c next v = .candidate at hv
    change s.leader (Function.update s.term c t v) ≠ some v
    by_cases hvc : v = c
    · subst v
      rw [Function.update_self]
      intro hl
      exact absurd (h.elected _ _ hl).1 (not_le_of_gt hterm)
    · rw [Function.update_of_ne hvc] at hv ⊢
      exact h.not_yet_leader v hv
  in_office v hv := by
    change Function.update s.standing c next v = .leader at hv
    change s.leader (Function.update s.term c t v) = some v
    by_cases hvc : v = c
    · subst v
      rw [Function.update_self] at hv
      exact absurd hv hnext
    · rw [Function.update_of_ne hvc] at hv ⊢
      exact h.in_office v hv
  elected u d hl := by
    obtain ⟨hle, Q, hQ, hballots⟩ := h.elected u d hl
    exact ⟨le_update_term hterm hle, Q, hQ, fun v hv => hkeep _ _ _ (hballots v hv)⟩

/-- Every step keeps the election invariant. -/
theorem ElectionInvariant.step {quorums : QuorumSystem Id} {s s' : ElectionState Id Term}
    (h : ElectionInvariant quorums s) (hstep : ElectionStep quorums s s') :
    ElectionInvariant quorums s' := by
  cases hstep with
  | poll c t next hterm hnext =>
    refine h.raise hterm next hnext _ (fun u w d hb => ?_) (fun u w hb => ?_) (fun _ => setAt_self ..)
    · exact setAt_ballot_of_some (Or.inl (h.ballot_above hterm)) hb
    · by_cases hcast : u = t ∧ w = c
      · exact Or.inr hcast
      · rw [setAt_of_ne _ _ hcast] at hb
        exact Or.inl hb
  | observe v t hterm =>
    exact h.raise hterm .follower (by decide) _ (fun _ _ _ hb => hb) (fun _ _ hb => Or.inl hb)
      (fun hf => by cases hf)
  | grant v c hopen =>
    have hkeep : ∀ u w d, s.ballot u w = some d → setAt s.ballot (s.term v) v (some c) u w = some d :=
      fun u w d hb => setAt_ballot_of_some hopen hb
    exact {
      ballot_le := fun u w hb => by
        change setAt s.ballot (s.term v) v (some c) u w ≠ none at hb
        by_cases hcast : u = s.term v ∧ w = v
        · rw [hcast.1, hcast.2]
        · rw [setAt_of_ne _ _ hcast] at hb
          exact h.ballot_le u w hb
      own_ballot := fun w hw => hkeep _ _ _ (h.own_ballot w hw)
      not_yet_leader := h.not_yet_leader
      in_office := h.in_office
      elected := fun u d hl => by
        obtain ⟨hle, Q, hQ, hballots⟩ := h.elected u d hl
        exact ⟨hle, Q, hQ, fun w hw => hkeep _ _ _ (hballots w hw)⟩ }
  | win c Q hstanding hQ hvotes =>
    have hvacant := h.vacant hstanding hQ hvotes
    exact {
      ballot_le := h.ballot_le
      own_ballot := fun v hv => by
        change Function.update s.standing c .leader v ≠ .follower at hv
        by_cases hvc : v = c
        · subst v
          exact h.own_ballot c (by rw [hstanding]; decide)
        · rw [Function.update_of_ne hvc] at hv
          exact h.own_ballot v hv
      not_yet_leader := fun v hv => by
        change Function.update s.standing c .leader v = .candidate at hv
        change Function.update s.leader (s.term c) (some c) (s.term v) ≠ some v
        by_cases hvc : v = c
        · subst v
          rw [Function.update_self] at hv
          cases hv
        · rw [Function.update_of_ne hvc] at hv
          by_cases hterm : s.term v = s.term c
          · rw [hterm, Function.update_self]
            intro heq
            exact hvc (Option.some.inj heq).symm
          · rw [Function.update_of_ne hterm]
            exact h.not_yet_leader v hv
      in_office := fun v hv => by
        change Function.update s.standing c .leader v = .leader at hv
        change Function.update s.leader (s.term c) (some c) (s.term v) = some v
        by_cases hvc : v = c
        · subst v
          rw [Function.update_self]
        · rw [Function.update_of_ne hvc] at hv
          have hold := h.in_office v hv
          by_cases hterm : s.term v = s.term c
          · rw [hterm, hvacant] at hold
            cases hold
          · rwa [Function.update_of_ne hterm]
      elected := fun u d hl => by
        change Function.update s.leader (s.term c) (some c) u = some d at hl
        by_cases hu : u = s.term c
        · subst u
          rw [Function.update_self] at hl
          cases hl
          exact ⟨le_rfl, Q, hQ, hvotes⟩
        · rw [Function.update_of_ne hu] at hl
          exact h.elected u d hl }
  | demote v =>
    have hold : ∀ w, Function.update s.standing v .follower w ≠ .follower →
        Function.update s.standing v .follower w = s.standing w := by
      intro w hw
      by_cases hwv : w = v
      · subst w
        rw [Function.update_self] at hw
        exact absurd rfl hw
      · exact Function.update_of_ne hwv _ _
    exact {
      ballot_le := h.ballot_le
      own_ballot := fun w hw => h.own_ballot w (by rw [← hold w hw]; exact hw)
      not_yet_leader := fun w hw => by
        change Function.update s.standing v .follower w = .candidate at hw
        exact h.not_yet_leader w (by rw [← hold w (by rw [hw]; decide), hw])
      in_office := fun w hw => by
        change Function.update s.standing v .follower w = .leader at hw
        exact h.in_office w (by rw [← hold w (by rw [hw]; decide), hw])
      elected := h.elected }

/-- The winners on record are permanent. -/
theorem ElectionStep.leader_mono {quorums : QuorumSystem Id} {s s' : ElectionState Id Term}
    (h : ElectionInvariant quorums s) (hstep : ElectionStep quorums s s') {t : Term} {c : Id}
    (hl : s.leader t = some c) : s'.leader t = some c := by
  cases hstep with
  | poll | observe | grant | demote => exact hl
  | win d Q hstanding hQ hvotes =>
    have hvacant := h.vacant hstanding hQ hvotes
    change Function.update s.leader (s.term d) (some d) t = some c
    by_cases ht : t = s.term d
    · rw [ht, hvacant] at hl
      cases hl
    · rwa [Function.update_of_ne ht]

/-- The ballots on record are permanent. -/
theorem ElectionStep.ballot_mono {quorums : QuorumSystem Id} {s s' : ElectionState Id Term}
    (h : ElectionInvariant quorums s) (hstep : ElectionStep quorums s s') {t : Term} {v c : Id}
    (hb : s.ballot t v = some c) : s'.ballot t v = some c := by
  cases hstep with
  | poll d u next hterm hnext => exact setAt_ballot_of_some (Or.inl (h.ballot_above hterm)) hb
  | grant w d hopen => exact setAt_ballot_of_some hopen hb
  | observe | win | demote => exact hb

/-- Every reachable election state satisfies the invariant. -/
theorem electionInvariant_of_reachable {quorums : QuorumSystem Id} {s : ElectionState Id Term}
    (run : Reachable ElectionState.First (ElectionStep quorums) s) : ElectionInvariant quorums s :=
  run.invariant (fun _ h => h.invariant) (fun _ _ _ h hstep => h.step hstep)

/-- The winners on record are permanent along a whole path. -/
theorem leader_mono_of_path {quorums : QuorumSystem Id} {s s' : ElectionState Id Term}
    (run : Reachable ElectionState.First (ElectionStep quorums) s)
    (path : Relation.ReflTransGen (ElectionStep quorums) s s') {t : Term} {c : Id}
    (hl : s.leader t = some c) : s'.leader t = some c := by
  induction path with
  | refl => exact hl
  | tail hpath hstep ih =>
    exact hstep.leader_mono (electionInvariant_of_reachable (run.trans hpath)) ih

/-- The ballots on record are permanent along a whole path. -/
theorem ballot_mono_of_path {quorums : QuorumSystem Id} {s s' : ElectionState Id Term}
    (run : Reachable ElectionState.First (ElectionStep quorums) s)
    (path : Relation.ReflTransGen (ElectionStep quorums) s s') {t : Term} {v c : Id}
    (hb : s.ballot t v = some c) : s'.ballot t v = some c := by
  induction path with
  | refl => exact hb
  | tail hpath hstep ih =>
    exact hstep.ballot_mono (electionInvariant_of_reachable (run.trans hpath)) ih

/-- A term has one leader, at one moment and at any later moment of the run. -/
theorem single_leader {quorums : QuorumSystem Id} {s s' : ElectionState Id Term}
    (run : Reachable ElectionState.First (ElectionStep quorums) s)
    (path : Relation.ReflTransGen (ElectionStep quorums) s s') {v w : Id}
    (hv : s.standing v = .leader) (hw : s'.standing w = .leader) (hterm : s.term v = s'.term w) :
    v = w := by
  have hleft := leader_mono_of_path run path ((electionInvariant_of_reachable run).in_office v hv)
  have hright := (electionInvariant_of_reachable (run.trans path)).in_office w hw
  rw [← hterm] at hright
  exact Option.some.inj (hleft.symm.trans hright)

end ConsensusLab.Foundation
