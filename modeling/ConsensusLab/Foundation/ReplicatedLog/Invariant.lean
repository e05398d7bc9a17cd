import ConsensusLab.Foundation.ReplicatedLog.Protocol

/-!
# What every reachable replicated log satisfies

The invariant has three layers. Logs follow the logs of leaders: entirely for leaders,
and only from the snapshot on for everybody else. Commit positions are covered by a
position that some leader has chosen with a quorum. A participant that confirmed a
leader's entry still holds it, or a later leader exists that lacks it; a ballot carries
the same information about the voter to the poll it was cast in.

Leader completeness is then no invariant of its own: it follows from these facts by
induction on the later term.
-/

namespace ConsensusLab.Foundation

variable {Id E : Type*} [Stamped E]

/-- From position `base` on, each entry of `l` was created by the leader of its term, and the log
up to that entry is that leader's. -/
def LogState.Follows (s : LogState Id E) (base bound : ℕ) (l : List E) : Prop :=
  ∀ j t, base ≤ j → termAt l j = some t →
    t ≤ bound ∧ s.Led t ∧ ∀ i, base ≤ i → i ≤ j → l[i]? = (s.leaderLog t)[i]?

/-- The first `k` positions of `l` are covered by a choice made in a term up to `bound`. -/
def LogState.Settled (s : LogState Id E) (bound k : ℕ) (l : List E) : Prop :=
  k = 0 ∨ ∃ t n, t ≤ bound ∧ s.chosen t n ∧ k ≤ n + 1 ∧ AgreeBelow k l (s.leaderLog t)

/-- The leader of the later term `u` lacks what the leader of term `t` holds up to position `n`. -/
def LogState.Lost (s : LogState Id E) (t n u : ℕ) : Prop :=
  t < u ∧ s.Led u ∧ ¬AgreeBelow (n + 1) (s.leaderLog u) (s.leaderLog t)

/-- A participant still holds a confirmed position and its log still ends at least there, unless a
later leader lacks it. -/
def LogState.Kept (s : LogState Id E) (v : Id) (t n : ℕ) : Prop :=
  (AgreeBelow (n + 1) (s.log v) (s.leaderLog t) ∧ EndsAtLeast (s.log v) t n) ∨
    ∃ u ≤ s.term v, s.Lost t n u

/-- What a voter confirmed before term `u` is reached by the log `l` it voted for. -/
def LogState.Backed (s : LogState Id E) (v : Id) (u : ℕ) (l : List E) : Prop :=
  ∀ t n, t < u → n < s.acked t v → termAt (s.leaderLog t) n = some t →
    EndsAtLeast l t n ∨ (∃ w < u, s.Lost t n w) ∨ s.Led u

/-- The leader of term `u` holds position `n` of term `t`, or that position can no longer be chosen
unless an earlier leader already lacked it. -/
def LogState.Covers (quorums : QuorumSystem Id) (s : LogState Id E) (u t n : ℕ) : Prop :=
  AgreeBelow (n + 1) (s.leaderLog u) (s.leaderLog t) ∨ (∃ w < u, s.Lost t n w) ∨
    ∃ Q, quorums.IsQuorum Q ∧ ∀ v ∈ Q, u ≤ s.term v ∧ s.acked t v ≤ n

/-- The invariant of the replicated log. -/
structure LogInvariant (quorums : QuorumSystem Id) (s : LogState Id E) : Prop where
  election : ElectionInvariant quorums s.toElectionState
  polled_le : ∀ t c, s.polled t c ≠ none → t ≤ s.term c
  candidate_log : ∀ v, s.standing v = .candidate → s.polled (s.term v) v = some (s.log v)
  office_log : ∀ v, s.standing v = .leader → s.log v = s.leaderLog (s.term v)
  office_commit : ∀ v, s.standing v = .leader → s.commit v = s.leaderCommit (s.term v)
  leader_follows : ∀ t, s.Led t → s.Follows 0 t (s.leaderLog t)
  node_follows : ∀ v, s.Follows (s.snap v) (s.term v) (s.log v)
  snap_le : ∀ v, s.snap v ≤ s.commit v
  commit_le : ∀ v, s.commit v ≤ (s.log v).length
  settled : ∀ v, s.Settled (s.term v) (s.commit v) (s.log v)
  leader_commit_le : ∀ t, s.Led t → s.leaderCommit t ≤ (s.leaderLog t).length
  leader_settled : ∀ t, s.Led t → s.Settled t (s.leaderCommit t) (s.leaderLog t)
  chosen_ok : ∀ t n, s.chosen t n → s.Led t ∧ termAt (s.leaderLog t) n = some t ∧
    n < s.leaderCommit t ∧ ∃ Q, quorums.IsQuorum Q ∧ ∀ v ∈ Q, n < s.acked t v
  acked_ok : ∀ t v, 0 < s.acked t v → t ≤ s.term v ∧ s.Led t ∧ s.acked t v ≤ (s.leaderLog t).length
  kept : ∀ t v n, n < s.acked t v → termAt (s.leaderLog t) n = some t → s.Kept v t n
  backed : ∀ u v c, s.ballot u v = some c → ∃ l, s.polled u c = some l ∧ s.Backed v u l
  covers : ∀ u t n, s.Led u → t < u → termAt (s.leaderLog t) n = some t → s.Led t →
    s.Covers quorums u t n

/-- The invariant holds before anything has happened. -/
theorem LogState.First.invariant {quorums : QuorumSystem Id} {s : LogState Id E} (h : s.First) :
    LogInvariant quorums s := by
  obtain ⟨hel, hpolled, hlog, hsnap, hcommit, hacked, hchosen⟩ := h
  have hled : ∀ t, ¬s.Led t := fun t ht => ht (hel.2.2 t)
  have hstanding : ∀ v, s.standing v = .follower := hel.1
  exact {
    election := hel.invariant
    polled_le := fun t c hp => absurd (hpolled t c) hp
    candidate_log := fun v hv => by rw [hstanding v] at hv; cases hv
    office_log := fun v hv => by rw [hstanding v] at hv; cases hv
    office_commit := fun v hv => by rw [hstanding v] at hv; cases hv
    leader_follows := fun t ht => absurd ht (hled t)
    node_follows := fun v j t _ ht => by rw [hlog v] at ht; cases ht
    snap_le := fun v => by rw [hsnap v]; exact Nat.zero_le _
    commit_le := fun v => by rw [hcommit v]; exact Nat.zero_le _
    settled := fun v => Or.inl (hcommit v)
    leader_commit_le := fun t ht => absurd ht (hled t)
    leader_settled := fun t ht => absurd ht (hled t)
    chosen_ok := fun t n hc => absurd hc (hchosen t n)
    acked_ok := fun t v hv => by rw [hacked t v] at hv; cases hv
    kept := fun t v n hn => by rw [hacked t v] at hn; cases hn
    backed := fun u v c hb => by rw [hel.2.1 u v] at hb; cases hb
    covers := fun u t n hu => absurd hu (hled u) }

variable {quorums : QuorumSystem Id} {s : LogState Id E}

/-- Terms along a log that follows the leaders are sorted. -/
theorem LogState.Follows.sorted {base bound : ℕ} {l : List E} (h : s.Follows base bound l)
    (hleader : ∀ t, s.Led t → s.Follows 0 t (s.leaderLog t)) {i j a b : ℕ} (hbase : base ≤ i)
    (hi : termAt l i = some a) (hj : termAt l j = some b) (hij : i ≤ j) : a ≤ b := by
  obtain ⟨_, hled, hsame⟩ := h j b (by omega) hj
  have hib : termAt (s.leaderLog b) i = some a := by rw [← termAt_congr (hsame i hbase hij), hi]
  exact (hleader b hled i a (Nat.zero_le _) hib).1

/-- Terms along a leader's log are sorted. -/
theorem LogInvariant.leader_sorted (h : LogInvariant quorums s) {t i j a b : ℕ} (hled : s.Led t)
    (hi : termAt (s.leaderLog t) i = some a) (hj : termAt (s.leaderLog t) j = some b) (hij : i ≤ j) :
    a ≤ b :=
  (h.leader_follows t hled).sorted h.leader_follows (Nat.zero_le _) hi hj hij

/-- **Leader completeness.** A position chosen in a term is held by the leader of every later term:
the quorum that confirmed it meets the quorum that could no longer confirm it. -/
theorem LogInvariant.completeness (h : LogInvariant quorums s) {t n : ℕ} (hchosen : s.chosen t n)
    (u : ℕ) (hled : s.Led u) (htu : t ≤ u) :
    AgreeBelow (n + 1) (s.leaderLog u) (s.leaderLog t) := by
  obtain ⟨hledt, hstamp, _, Q, hQ, hacked⟩ := h.chosen_ok t n hchosen
  induction u using Nat.strong_induction_on with
  | _ u ih =>
    rcases Nat.eq_or_lt_of_le htu with rfl | hlt
    · exact AgreeBelow.refl _ _
    · rcases h.covers u t n hled hlt hstamp hledt with hagree | ⟨w, hw, htw, hledw, hlost⟩ | ⟨R, hR, hlow⟩
      · exact hagree
      · exact absurd (ih w hw hledw htw.le) hlost
      · obtain ⟨v, hvQ, hvR⟩ := quorums.meet hQ hR
        have hhigh := hacked v hvQ
        have hbound := (hlow v hvR).2
        omega

/-- A chosen position is never lost. -/
theorem LogInvariant.not_lost (h : LogInvariant quorums s) {t n u : ℕ} (hchosen : s.chosen t n) :
    ¬s.Lost t n u := fun hlost =>
  hlost.2.2 (h.completeness hchosen u hlost.2.1 hlost.1.le)

/-- Settled positions are held by every leader of a term that may know of them. -/
theorem LogInvariant.settled_agrees (h : LogInvariant quorums s) {bound k u : ℕ} {l : List E}
    (hs : s.Settled bound k l) (hled : s.Led u) (hbound : bound ≤ u) :
    AgreeBelow k l (s.leaderLog u) := by
  rcases hs with rfl | ⟨t, n, ht, hchosen, hk, hagree⟩
  · intro j hj
    omega
  · exact hagree.trans ((h.completeness hchosen u hled (by omega)).symm.mono hk)

/-- What a participant has committed is in the log of its term's leader. -/
theorem LogInvariant.commit_agrees (h : LogInvariant quorums s) {v : Id} (hled : s.Led (s.term v)) :
    AgreeBelow (s.commit v) (s.log v) (s.leaderLog (s.term v)) :=
  h.settled_agrees (h.settled v) hled le_rfl

/-- Two leaders agree on what both have committed. -/
theorem LogInvariant.leaders_agree (h : LogInvariant quorums s) {t u k : ℕ} (ht : s.Led t)
    (hu : s.Led u) (hkt : k ≤ s.leaderCommit t) (hku : k ≤ s.leaderCommit u) :
    AgreeBelow k (s.leaderLog t) (s.leaderLog u) := by
  rcases Nat.le_total t u with hle | hle
  · exact (h.settled_agrees (h.leader_settled t ht) hu hle).mono hkt
  · exact ((h.settled_agrees (h.leader_settled u hu) ht hle).mono hku).symm

end ConsensusLab.Foundation
