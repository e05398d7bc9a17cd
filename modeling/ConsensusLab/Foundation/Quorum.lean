import Mathlib.Data.Finset.Card
import Mathlib.Data.Finset.Basic

/-!
# Quorum systems

A quorum system names the sets of participants whose joint consent counts as a
decision. All that a protocol ever uses is that two quorums share a participant, so
the intersection property is a field of the structure. Strict majorities of a finite
member set are the instance used throughout.
-/

namespace ConsensusLab.Foundation

/-- A family of participant sets, any two of which meet. -/
structure QuorumSystem (Id : Type*) where
  IsQuorum : Finset Id → Prop
  meet : ∀ {Q R : Finset Id}, IsQuorum Q → IsQuorum R → ∃ v, v ∈ Q ∧ v ∈ R

/-- A strict majority of a finite member set. -/
def StrictMajority {Id : Type*} (members Q : Finset Id) : Prop :=
  Q ⊆ members ∧ members.card < 2 * Q.card

/-- Two strict majorities of one member set share a member: otherwise their sizes would add up to
more than the membership. -/
theorem StrictMajority.meet {Id : Type*} [DecidableEq Id] {members Q R : Finset Id}
    (hQ : StrictMajority members Q) (hR : StrictMajority members R) : ∃ v, v ∈ Q ∧ v ∈ R := by
  by_contra hnone
  have hdisj : Disjoint Q R := by
    rw [Finset.disjoint_left]
    intro v hv hw
    exact hnone ⟨v, hv, hw⟩
  have hunion : (Q ∪ R).card ≤ members.card := Finset.card_le_card (Finset.union_subset hQ.1 hR.1)
  rw [Finset.card_union_of_disjoint hdisj] at hunion
  have hq := hQ.2
  have hr := hR.2
  omega

/-- The quorum system of strict majorities. -/
def majorities {Id : Type*} [DecidableEq Id] (members : Finset Id) : QuorumSystem Id where
  IsQuorum := StrictMajority members
  meet := StrictMajority.meet

/-- A duplicate-free list of members longer than half the membership lists a strict majority. -/
theorem strictMajority_of_list {Id : Type*} [DecidableEq Id] {members votes : List Id}
    (hmembers : members.Nodup) (hvotes : votes.Nodup) (hsub : ∀ v ∈ votes, v ∈ members)
    (hcount : members.length / 2 + 1 ≤ votes.length) :
    StrictMajority members.toFinset votes.toFinset := by
  refine ⟨fun v hv => ?_, ?_⟩
  · rw [List.mem_toFinset] at hv ⊢
    exact hsub v hv
  · rw [List.toFinset_card_of_nodup hmembers, List.toFinset_card_of_nodup hvotes]
    omega

end ConsensusLab.Foundation
