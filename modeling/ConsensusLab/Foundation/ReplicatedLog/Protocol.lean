import ConsensusLab.Foundation.Election
import ConsensusLab.Foundation.LogOrder

/-!
# A replicated log with compaction

The election protocol extended by logs. Every participant keeps a whole log here, also
the part it has compacted: `snap v` only says how many positions of it are covered by
a snapshot, which is what the two lenient rules below depend on.

A leader's own log is on record as `leaderLog t`, its commit position as
`leaderCommit t`, and messages are replaced by these records, which only grow: whatever
an old message says is still true of them. Two rules are weaker than one would write
them for safety alone. `accept` compares nothing below `snap v`, and `install` keeps
the follower's entries behind an installed snapshot without comparing terms, so a log
need not extend its own snapshot.
-/

namespace ConsensusLab.Foundation

/-- Elections, logs and the records of what leaders and followers have done. -/
structure LogState (Id E : Type*) extends ElectionState Id ℕ where
  /-- The log with which a candidate opened its poll of a term. -/
  polled : ℕ → Id → Option (List E)
  log : Id → List E
  /-- How many positions a participant's snapshot covers. -/
  snap : Id → ℕ
  commit : Id → ℕ
  /-- The log of the leader of a term, as far as it got. -/
  leaderLog : ℕ → List E
  leaderCommit : ℕ → ℕ
  /-- How far a participant has confirmed the log of a term's leader beyond its own snapshot. -/
  acked : ℕ → Id → ℕ
  /-- The positions at which a leader of a term counted a quorum. -/
  chosen : ℕ → ℕ → Prop

variable {Id E : Type*}

/-- A term that has had a leader. -/
def LogState.Led (s : LogState Id E) (t : ℕ) : Prop :=
  s.leader t ≠ none

variable [DecidableEq Id] [Stamped E]

/-- What merging the leader's positions `p, …, m - 1` into a log does: nothing when all terms agree
from the snapshot on, and otherwise the first disagreement is replaced together with everything
behind it. -/
def Merges (snap p m : ℕ) (lead l l' : List E) : Prop :=
  (l' = l ∧ m ≤ l.length ∧ ∀ j, max p snap ≤ j → j < m → termAt l j = termAt lead j) ∨
  ∃ k, max p snap ≤ k ∧ k < m ∧ k ≤ l.length ∧ termAt l k ≠ termAt lead k ∧
    (∀ j, max p snap ≤ j → j < k → termAt l j = termAt lead j) ∧
    l' = l.take k ++ (lead.take m).drop k

omit [DecidableEq Id] in
/-- A merged log reaches as far as the leader's entries. -/
theorem Merges.le_length {snap p m : ℕ} {lead l l' : List E} (h : Merges snap p m lead l l')
    (hm : m ≤ lead.length) : m ≤ l'.length := by
  rcases h with ⟨rfl, hlen, _⟩ | ⟨k, _, hkm, hk, _, _, rfl⟩
  · exact hlen
  · rw [List.length_append, List.length_take_of_le hk, List.length_drop, List.length_take_of_le hm]
    omega

/-- One step of the replicated log. The parameter `may` restricts which snapshots are installed: in
which state, by whom, and up to which position. -/
inductive LogStep (quorums : QuorumSystem Id) (may : LogState Id E → Id → ℕ → Prop) :
    LogState Id E → LogState Id E → Prop
  | poll (s : LogState Id E) (c : Id) (t : ℕ) (next : Standing) (hterm : s.term c < t)
      (hnext : next ≠ .leader) :
      LogStep quorums may s { s with
        term := Function.update s.term c t
        standing := Function.update s.standing c next
        ballot := setAt s.ballot t c (some c)
        polled := setAt s.polled t c (some (s.log c)) }
  | observe (s : LogState Id E) (v : Id) (t : ℕ) (hterm : s.term v < t) :
      LogStep quorums may s { s with
        term := Function.update s.term v t
        standing := Function.update s.standing v .follower }
  | grant (s : LogState Id E) (v c : Id) (l : List E)
      (hopen : s.ballot (s.term v) v = none ∨ s.ballot (s.term v) v = some c)
      (hpolled : s.polled (s.term v) c = some l) (hfresh : UpToDate l (s.log v)) :
      LogStep quorums may s { s with ballot := setAt s.ballot (s.term v) v (some c) }
  | win (s : LogState Id E) (c : Id) (Q : Finset Id) (hstanding : s.standing c = .candidate)
      (hQ : quorums.IsQuorum Q) (hvotes : ∀ v ∈ Q, s.ballot (s.term c) v = some c) :
      LogStep quorums may s { s with
        standing := Function.update s.standing c .leader
        leader := Function.update s.leader (s.term c) (some c)
        leaderLog := Function.update s.leaderLog (s.term c) (s.log c)
        leaderCommit := Function.update s.leaderCommit (s.term c) (s.commit c)
        acked := setAt s.acked (s.term c) c (s.log c).length }
  | retreat (s : LogState Id E) (v : Id) (k : ℕ) (hsnap : s.snap v ≤ k) (hcommit : k ≤ s.commit v) :
      LogStep quorums may s { s with
        standing := Function.update s.standing v .follower
        commit := Function.update s.commit v k }
  | append (s : LogState Id E) (c : Id) (e : E) (hstanding : s.standing c = .leader)
      (hstamp : Stamped.stamp e = s.term c) :
      LogStep quorums may s { s with
        log := Function.update s.log c (s.log c ++ [e])
        leaderLog := Function.update s.leaderLog (s.term c) (s.log c ++ [e])
        acked := setAt s.acked (s.term c) c ((s.log c).length + 1) }
  | accept (s : LogState Id E) (v : Id) (p m k : ℕ) (l : List E) (hled : s.Led (s.term v))
      (hother : s.leader (s.term v) ≠ some v)
      (hm : m ≤ (s.leaderLog (s.term v)).length)
      (hprev : s.snap v < p → p ≤ (s.log v).length ∧
        termAt (s.log v) (p - 1) = termAt (s.leaderLog (s.term v)) (p - 1))
      (hk : k ≤ m) (hcommit : k ≤ s.leaderCommit (s.term v))
      (hmerge : Merges (s.snap v) p m (s.leaderLog (s.term v)) (s.log v) l) :
      LogStep quorums may s { s with
        standing := Function.update s.standing v .follower
        log := Function.update s.log v l
        commit := Function.update s.commit v (max (s.commit v) k)
        acked := setAt s.acked (s.term v) v
          (if s.snap v < m then max (s.acked (s.term v) v) m else s.acked (s.term v) v) }
  | advance (s : LogState Id E) (c : Id) (n : ℕ) (Q : Finset Id) (hstanding : s.standing c = .leader)
      (hnew : s.commit c ≤ n) (hstamp : termAt (s.log c) n = some (s.term c))
      (hQ : quorums.IsQuorum Q) (hacked : ∀ v ∈ Q, n < s.acked (s.term c) v) :
      LogStep quorums may s { s with
        commit := Function.update s.commit c (n + 1)
        leaderCommit := Function.update s.leaderCommit (s.term c) (n + 1)
        chosen := fun t i => (t = s.term c ∧ i = n) ∨ s.chosen t i }
  | compact (s : LogState Id E) (v : Id) (k : ℕ) (hsnap : s.snap v ≤ k) (hcommit : k ≤ s.commit v) :
      LogStep quorums may s { s with snap := Function.update s.snap v k }
  | install (s : LogState Id E) (v : Id) (k : ℕ) (hled : s.Led (s.term v))
      (hother : s.leader (s.term v) ≠ some v) (hsnap : s.snap v ≤ k)
      (hcommit : k ≤ s.leaderCommit (s.term v)) (hmay : may s v k) :
      LogStep quorums may s { s with
        standing := Function.update s.standing v .follower
        log := Function.update s.log v ((s.leaderLog (s.term v)).take k ++ (s.log v).drop k)
        snap := Function.update s.snap v k
        commit := Function.update s.commit v (max (s.commit v) k) }

/-- No logs, no elections and nothing committed. -/
def LogState.First (s : LogState Id E) : Prop :=
  s.toElectionState.First ∧ (∀ t v, s.polled t v = none) ∧ (∀ v, s.log v = []) ∧ (∀ v, s.snap v = 0) ∧
    (∀ v, s.commit v = 0) ∧ (∀ t v, s.acked t v = 0) ∧ ∀ t n, ¬s.chosen t n

/-- Forgetting the logs turns every step into an election step or into no step. -/
theorem LogStep.toElectionStep {quorums : QuorumSystem Id} {may : LogState Id E → Id → ℕ → Prop}
    {s s' : LogState Id E} (h : LogStep quorums may s s') :
    ElectionStep quorums s.toElectionState s'.toElectionState ∨
      s'.toElectionState = s.toElectionState := by
  cases h with
  | poll c t next hterm hnext => exact Or.inl (.poll _ c t next hterm hnext)
  | observe v t hterm => exact Or.inl (.observe _ v t hterm)
  | grant v c l hopen hpolled hfresh => exact Or.inl (.grant _ v c hopen)
  | win c Q hstanding hQ hvotes => exact Or.inl (.win _ c Q hstanding hQ hvotes)
  | retreat v => exact Or.inl (.demote _ v)
  | append | advance | compact => exact Or.inr rfl
  | accept v => exact Or.inl (.demote _ v)
  | install v => exact Or.inl (.demote _ v)

end ConsensusLab.Foundation
