import ConsensusLab.Foundation.ReplicatedLog.Campaign

/-!
# Winning an election

A participant whose log does not extend its own snapshot must never come into office.
The argument compares its last term with the term that chose the snapshot: a voter of
the choosing quorum asks for a log that ends at least there, and a log that ends at
least there and follows the leaders from its snapshot on is the leaders' log from the
beginning.
-/

namespace ConsensusLab.Foundation

section State

variable {Id E : Type*} [DecidableEq Id] {t : ℕ}

/-- The state after a candidate has come into office. -/
def LogState.won (s : LogState Id E) (c : Id) : LogState Id E :=
  { s with
    standing := Function.update s.standing c .leader
    leader := Function.update s.leader (s.term c) (some c)
    leaderLog := Function.update s.leaderLog (s.term c) (s.log c)
    leaderCommit := Function.update s.leaderCommit (s.term c) (s.commit c)
    acked := setAt s.acked (s.term c) c (s.log c).length }

/-- The standing of the others. -/
theorem LogState.won_standing_of_ne (s : LogState Id E) {c v : Id} (hv : v ≠ c) :
    (s.won c).standing v = s.standing v :=
  Function.update_of_ne hv _ _

/-- The term has a leader. -/
theorem LogState.led_won_self (s : LogState Id E) (c : Id) : (s.won c).Led (s.term c) :=
  ne_of_eq_of_ne (Function.update_self ..) (Option.some_ne_none c)

/-- Other terms have leaders as before. -/
theorem LogState.led_won_iff (s : LogState Id E) {c : Id} (ht : t ≠ s.term c) : (s.won c).Led t ↔ s.Led t := by
  rw [LogState.Led, LogState.Led]
  change Function.update s.leader (s.term c) (some c) t ≠ none ↔ _
  rw [Function.update_of_ne ht]

/-- The winner's log goes on record. -/
theorem LogState.won_leaderLog_self (s : LogState Id E) (c : Id) : (s.won c).leaderLog (s.term c) = s.log c :=
  Function.update_self ..

/-- The logs on record for other terms. -/
theorem LogState.won_leaderLog_of_ne (s : LogState Id E) {c : Id} (ht : t ≠ s.term c) :
    (s.won c).leaderLog t = s.leaderLog t :=
  Function.update_of_ne ht _ _

/-- So does its commit position. -/
theorem LogState.won_leaderCommit_self (s : LogState Id E) (c : Id) : (s.won c).leaderCommit (s.term c) = s.commit c :=
  Function.update_self ..

/-- The commit positions on record for other terms. -/
theorem LogState.won_leaderCommit_of_ne (s : LogState Id E) {c : Id} (ht : t ≠ s.term c) :
    (s.won c).leaderCommit t = s.leaderCommit t :=
  Function.update_of_ne ht _ _

/-- The winner confirms its own log. -/
theorem LogState.won_acked_self (s : LogState Id E) (c : Id) : (s.won c).acked (s.term c) c = (s.log c).length :=
  setAt_self ..

/-- The other confirmations. -/
theorem LogState.won_acked_of_ne (s : LogState Id E) {c v : Id} (htv : ¬(t = s.term c ∧ v = c)) :
    (s.won c).acked t v = s.acked t v :=
  setAt_of_ne _ _ htv

end State

variable {Id E : Type*} [Stamped E] {quorums : QuorumSystem Id} {s : LogState Id E}

/-- A settled prefix agrees with any leader's log up to a position of that leader's own term, unless
a later leader lacks the position. -/
theorem LogInvariant.settled_or_lost (h : LogInvariant quorums s) {bound k t n : ℕ} {l : List E}
    (hs : s.Settled bound k l) (hvacant : ¬s.Led bound) (hled : s.Led t) :
    (∀ j < k, j ≤ n → l[j]? = (s.leaderLog t)[j]?) ∨ ∃ w < bound, s.Lost t n w := by
  rcases hs with rfl | ⟨w, i, hw, hchosen, hk, hagree⟩
  · exact Or.inl fun j hj => absurd hj (Nat.not_lt_zero j)
  · have hledw := (h.chosen_ok w i hchosen).1
    have hne : w ≠ bound := fun heq => hvacant (heq ▸ hledw)
    rcases Nat.le_total w t with hwt | htw
    · have hcomp := h.completeness hchosen t hled hwt
      exact Or.inl fun j hj _ => (hagree j hj).trans (hcomp j (by omega)).symm
    · by_cases hheld : AgreeBelow (n + 1) (s.leaderLog w) (s.leaderLog t)
      · exact Or.inl fun j hj hjn => (hagree j hj).trans (hheld j (by omega))
      · have htw' : t < w := by
          rcases Nat.eq_or_lt_of_le htw with rfl | hlt
          · exact absurd (AgreeBelow.refl _ _) hheld
          · exact hlt
        exact Or.inr ⟨w, by omega, htw', hledw, hheld⟩

/-- In a term without a leader, a participant whose log ends at least at a leader's position holds
the leader's log up to it, unless a later leader lacks it. -/
theorem LogInvariant.holds_of_ends (h : LogInvariant quorums s) {c : Id} {t n : ℕ}
    (hvacant : ¬s.Led (s.term c)) (hend : EndsAtLeast (s.log c) t n) (hled : s.Led t)
    (hstamp : termAt (s.leaderLog t) n = some t) :
    AgreeBelow (n + 1) (s.log c) (s.leaderLog t) ∨ ∃ w < s.term c, s.Lost t n w := by
  rcases h.settled_or_lost (n := n) (h.settled c) hvacant hled with hinitial | hlost
  swap
  · exact Or.inr hlost
  have hpos := hend.length_pos
  have hlast := termAt_last hpos
  have hsnap := h.snap_le c
  have hcommit := h.commit_le c
  rcases Nat.lt_or_ge (s.snap c) (s.log c).length with hsuffix | hall
  · obtain ⟨hx, hledx, hsame⟩ := h.node_follows c _ _ (by omega) hlast
    have hxne : lastTerm (s.log c) ≠ s.term c := fun heq => hvacant (heq ▸ hledx)
    rcases hend with hlater | ⟨heq, hn⟩
    · by_cases hheld : AgreeBelow (n + 1) (s.leaderLog (lastTerm (s.log c))) (s.leaderLog t)
      · have hxn : termAt (s.leaderLog (lastTerm (s.log c))) n = some t := by
          rw [termAt_congr (hheld n (by omega)), hstamp]
        have hxlast : termAt (s.leaderLog (lastTerm (s.log c))) ((s.log c).length - 1) =
            some (lastTerm (s.log c)) := by
          rw [← termAt_congr (hsame _ (by omega) le_rfl), hlast]
        have hreach : n < (s.log c).length - 1 := by
          by_contra hshort
          have := h.leader_sorted hledx hxlast hxn (by omega)
          omega
        left
        intro j hj
        rcases Nat.lt_or_ge j (s.snap c) with hlow | hhigh
        · exact hinitial j (by omega) (by omega)
        · exact (hsame j hhigh (by omega)).trans (hheld j hj)
      · exact Or.inr ⟨_, by omega, hlater, hledx, hheld⟩
    · left
      intro j hj
      rcases Nat.lt_or_ge j (s.snap c) with hlow | hhigh
      · exact hinitial j (by omega) (by omega)
      · rw [hsame j hhigh (by omega), heq]
  · have hreach : n < (s.log c).length := by
      rcases hend with hlater | ⟨_, hn⟩
      · by_contra hshort
        have hinside : termAt (s.leaderLog t) ((s.log c).length - 1) = some (lastTerm (s.log c)) := by
          rw [← termAt_congr (hinitial _ (by omega) (by omega)), hlast]
        have := (h.leader_follows t hled _ _ (Nat.zero_le _) hinside).1
        omega
      · exact hn
    exact Or.inl fun j hj => hinitial j (by omega) (by omega)

/-- What the ballots of a winning quorum say about the winner's log. -/
theorem LogInvariant.winner_ends (h : LogInvariant quorums s) {c v : Id} {t n : ℕ}
    (hstanding : s.standing c = .candidate) (hvacant : ¬s.Led (s.term c))
    (hvote : s.ballot (s.term c) v = some c) (ht : t < s.term c) (hn : n < s.acked t v)
    (hstamp : termAt (s.leaderLog t) n = some t) :
    EndsAtLeast (s.log c) t n ∨ ∃ w < s.term c, s.Lost t n w := by
  obtain ⟨l, hl, hback⟩ := h.backed _ v c hvote
  rw [h.candidate_log c hstanding] at hl
  cases hl
  rcases hback t n ht hn hstamp with hend | hlost | hled
  · exact Or.inl hend
  · exact Or.inr hlost
  · exact absurd hled hvacant

/-- A winner holds every position an earlier leader could still choose. -/
theorem LogInvariant.winner_covers (h : LogInvariant quorums s) {c : Id} {Q : Finset Id} {t n : ℕ}
    (hstanding : s.standing c = .candidate) (hvacant : ¬s.Led (s.term c)) (hQ : quorums.IsQuorum Q)
    (hvotes : ∀ v ∈ Q, s.ballot (s.term c) v = some c) (ht : t < s.term c)
    (hstamp : termAt (s.leaderLog t) n = some t) (hled : s.Led t) :
    AgreeBelow (n + 1) (s.log c) (s.leaderLog t) ∨ (∃ w < s.term c, s.Lost t n w) ∨
      ∃ Q, quorums.IsQuorum Q ∧ ∀ v ∈ Q, s.term c ≤ s.term v ∧ s.acked t v ≤ n := by
  by_cases hconfirmed : ∃ v ∈ Q, n < s.acked t v
  · obtain ⟨v, hv, hn⟩ := hconfirmed
    rcases h.winner_ends hstanding hvacant (hvotes v hv) ht hn hstamp with hend | hlost
    · rcases h.holds_of_ends hvacant hend hled hstamp with hagree | hlost
      · exact Or.inl hagree
      · exact Or.inr (Or.inl hlost)
    · exact Or.inr (Or.inl hlost)
  · refine Or.inr (Or.inr ⟨Q, hQ, fun v hv => ⟨?_, ?_⟩⟩)
    · exact h.election.ballot_le _ v (by rw [hvotes v hv]; exact Option.some_ne_none c)
    · by_contra hn
      exact hconfirmed ⟨v, hv, by omega⟩

/-- A winner's log ends at least at every position chosen in an earlier term, and holds it. -/
theorem LogInvariant.winner_chosen (h : LogInvariant quorums s) {c : Id} {Q : Finset Id} {t n : ℕ}
    (hstanding : s.standing c = .candidate) (hvacant : ¬s.Led (s.term c)) (hQ : quorums.IsQuorum Q)
    (hvotes : ∀ v ∈ Q, s.ballot (s.term c) v = some c) (ht : t < s.term c) (hchosen : s.chosen t n) :
    EndsAtLeast (s.log c) t n ∧ AgreeBelow (n + 1) (s.log c) (s.leaderLog t) := by
  obtain ⟨hled, hstamp, _, R, hR, hacked⟩ := h.chosen_ok t n hchosen
  obtain ⟨v, hvQ, hvR⟩ := quorums.meet hQ hR
  rcases h.winner_ends hstanding hvacant (hvotes v hvQ) ht (hacked v hvR) hstamp with hend | ⟨w, _, hlost⟩
  · rcases h.holds_of_ends hvacant hend hled hstamp with hagree | ⟨w, _, hlost⟩
    · exact ⟨hend, hagree⟩
    · exact absurd hlost (h.not_lost hchosen)
  · exact absurd hlost (h.not_lost hchosen)

/-- A winner's log follows the leaders from its first position on: it extends its own snapshot. -/
theorem LogInvariant.winner_follows (h : LogInvariant quorums s) {c : Id} {Q : Finset Id}
    (hstanding : s.standing c = .candidate) (hvacant : ¬s.Led (s.term c)) (hQ : quorums.IsQuorum Q)
    (hvotes : ∀ v ∈ Q, s.ballot (s.term c) v = some c) : s.Follows 0 (s.term c) (s.log c) := by
  have hsnap := h.snap_le c
  rcases h.settled c with hzero | ⟨w, i, hw, hchosen, hcommit, _⟩
  · exact (h.node_follows c).mono (by omega) le_rfl
  · obtain ⟨hledw, hstampw, _⟩ := h.chosen_ok w i hchosen
    have hwlt : w < s.term c := by
      rcases Nat.eq_or_lt_of_le hw with heq | hlt
      · exact absurd (heq ▸ hledw) hvacant
      · exact hlt
    obtain ⟨hend, hagree⟩ := h.winner_chosen hstanding hvacant hQ hvotes hwlt hchosen
    intro j t _ hj
    rcases Nat.lt_or_ge i j with hbeyond | hwithin
    · obtain ⟨ht, hled, hsame⟩ := h.node_follows c j t (by omega) hj
      refine ⟨ht, hled, fun k _ hk => ?_⟩
      have hjlen := lt_length_of_termAt hj
      obtain ⟨_, hledx, hsamex⟩ :=
        h.node_follows c _ _ (show s.snap c ≤ (s.log c).length - 1 by omega) (termAt_last hend.length_pos)
      have hwx : w ≤ lastTerm (s.log c) := by
        rcases hend with hlater | ⟨heq, _⟩ <;> omega
      have hxi : termAt (s.leaderLog (lastTerm (s.log c))) i = some w := by
        rw [termAt_congr (h.completeness hchosen _ hledx hwx i (by omega)), hstampw]
      have hxj : termAt (s.leaderLog (lastTerm (s.log c))) j = some t := by
        rw [← termAt_congr (hsamex j (by omega) (by omega)), hj]
      have hwt : w ≤ t := h.leader_sorted hledx hxi hxj hbeyond.le
      rcases Nat.lt_or_ge k (i + 1) with hlow | hhigh
      · exact (hagree k hlow).trans (h.completeness hchosen t hled hwt k hlow).symm
      · exact hsame k (by omega) hk
    · have hjw : termAt (s.leaderLog w) j = some t := by rw [← termAt_congr (hagree j (by omega)), hj]
      obtain ⟨ht, hled, hsame⟩ := h.leader_follows w hledw j t (Nat.zero_le _) hjw
      exact ⟨by omega, hled, fun k hk hkj => (hagree k (by omega)).trans (hsame k hk hkj)⟩

variable [DecidableEq Id]

section Office

variable {c : Id}

/-- The records of the other terms stay as they are. -/
theorem LogInvariant.amends_won (h : LogInvariant quorums s) (hvacant : ¬s.Led (s.term c)) : s.Amends (s.won c) := by
  have hne : ∀ t, s.Led t → t ≠ s.term c := fun t ht heq => hvacant (heq ▸ ht)
  exact {
    led := fun t ht => (s.led_won_iff (hne t ht)).mpr ht
    logs := fun t ht => by rw [s.won_leaderLog_of_ne (hne t ht)]
    chosen := fun _ _ hc => hc
    own := fun t j e ht hj he => by
      rw [s.won_leaderLog_of_ne (hne t ht), List.getElem?_eq_none hj] at he
      cases he
    term_le := fun _ => le_rfl
    acked_le := fun t v => by
      by_cases htv : t = s.term c ∧ v = c
      · have hzero : s.acked t v = 0 := by
          by_contra hpos
          exact hne t (h.acked_ok t v (Nat.pos_of_ne_zero hpos)).2.1 htv.1
        omega
      · rw [s.won_acked_of_ne htv]
    acked_past := fun t v ht => s.won_acked_of_ne (by rintro ⟨rfl, rfl⟩; exact absurd ht (Nat.lt_irrefl _)) }

/-- The winner's log has no entry of its own term yet, so stamped positions are those of earlier leaders. -/
theorem LogState.Follows.stamped_before (hfollows : s.Follows 0 (s.term c) (s.log c)) (hvacant : ¬s.Led (s.term c))
    {t n : ℕ} (hled : (s.won c).Led t) (hstamp : termAt ((s.won c).leaderLog t) n = some t) :
    t ≠ s.term c ∧ s.Led t := by
  have hne : t ≠ s.term c := by
    rintro rfl
    rw [s.won_leaderLog_self] at hstamp
    exact hvacant (hfollows n _ (Nat.zero_le _) hstamp).2.1
  exact ⟨hne, (s.led_won_iff hne).mp hled⟩

/-- The new leader covers the positions of earlier terms. -/
theorem LogInvariant.covers_won (h : LogInvariant quorums s) {Q : Finset Id} (hstanding : s.standing c = .candidate)
    (hvacant : ¬s.Led (s.term c)) (hQ : quorums.IsQuorum Q) (hvotes : ∀ v ∈ Q, s.ballot (s.term c) v = some c)
    {t n : ℕ} (ht : t < s.term c) (hled : s.Led t) (hstamp : termAt (s.leaderLog t) n = some t) :
    (s.won c).Covers quorums (s.term c) t n := by
  have ha := h.amends_won hvacant
  rcases h.winner_covers hstanding hvacant hQ hvotes ht hstamp hled with hagree | ⟨w, hw, hlost⟩ | hlow
  · left
    rwa [s.won_leaderLog_self, s.won_leaderLog_of_ne (Nat.ne_of_lt ht)]
  · exact Or.inr (Or.inl ⟨w, hw, h.lost_amend ha hled (lt_length_of_termAt hstamp) hlost⟩)
  · exact Or.inr (Or.inr (ha.behind ht hlow))

/-- Whoever is in office has its log and its commit position on record. -/
theorem LogInvariant.office_won (h : LogInvariant quorums s) (hvacant : ¬s.Led (s.term c)) {v : Id}
    (hv : (s.won c).standing v = .leader) :
    s.log v = (s.won c).leaderLog (s.term v) ∧ s.commit v = (s.won c).leaderCommit (s.term v) := by
  by_cases hvc : v = c
  · rw [hvc, s.won_leaderLog_self, s.won_leaderCommit_self]
    exact ⟨rfl, rfl⟩
  · rw [s.won_standing_of_ne hvc] at hv
    have hled : s.Led (s.term v) := ne_of_eq_of_ne (h.election.in_office v hv) (Option.some_ne_none v)
    have hne : s.term v ≠ s.term c := fun heq => hvacant (heq ▸ hled)
    rw [s.won_leaderLog_of_ne hne, s.won_leaderCommit_of_ne hne]
    exact ⟨h.office_log v hv, h.office_commit v hv⟩

/-- Nobody but the winner has confirmed anything in its term. -/
theorem LogInvariant.acked_won (h : LogInvariant quorums s) (hvacant : ¬s.Led (s.term c)) {t : ℕ} {v : Id}
    (hpos : 0 < (s.won c).acked t v) :
    t ≤ s.term v ∧ (s.won c).Led t ∧ (s.won c).acked t v ≤ ((s.won c).leaderLog t).length := by
  by_cases htv : t = s.term c ∧ v = c
  · rw [htv.1, htv.2, s.won_acked_self, s.won_leaderLog_self]
    exact ⟨le_rfl, s.led_won_self c, le_rfl⟩
  · rw [s.won_acked_of_ne htv] at hpos ⊢
    exact h.acked_ok_amend (h.amends_won hvacant) hpos

/-- Coming into office keeps the invariant. -/
theorem LogInvariant.win (h : LogInvariant quorums s) {Q : Finset Id}
    (hstanding : s.standing c = .candidate) (hQ : quorums.IsQuorum Q)
    (hvotes : ∀ v ∈ Q, s.ballot (s.term c) v = some c) :
    LogInvariant quorums { s with
      standing := Function.update s.standing c .leader
      leader := Function.update s.leader (s.term c) (some c)
      leaderLog := Function.update s.leaderLog (s.term c) (s.log c)
      leaderCommit := Function.update s.leaderCommit (s.term c) (s.commit c)
      acked := setAt s.acked (s.term c) c (s.log c).length } := by
  have hvacant : ¬s.Led (s.term c) := fun hled => hled (h.election.vacant hstanding hQ hvotes)
  have hfollows := h.winner_follows hstanding hvacant hQ hvotes
  have ha := h.amends_won hvacant
  change LogInvariant quorums (s.won c)
  exact {
    election := h.election.step (.win _ c Q hstanding hQ hvotes)
    polled_le := h.polled_le
    candidate_log := fun v hv => by
      have hvc : v ≠ c := by
        rintro rfl
        cases hv.symm.trans (Function.update_self ..)
      rw [s.won_standing_of_ne hvc] at hv
      exact h.candidate_log v hv
    office_log := fun v hv => (h.office_won hvacant hv).1
    office_commit := fun v hv => (h.office_won hvacant hv).2
    leader_follows := fun t ht => by
      by_cases htc : t = s.term c
      · rw [htc, s.won_leaderLog_self]
        exact hfollows.extend ha.toExtends
      · rw [s.won_leaderLog_of_ne htc]
        exact (h.leader_follows t ((s.led_won_iff htc).mp ht)).extend ha.toExtends
    node_follows := fun v => (h.node_follows v).extend ha.toExtends
    snap_le := h.snap_le
    commit_le := h.commit_le
    settled := fun v => h.settled_extend ha.toExtends (h.settled v)
    leader_commit_le := fun t ht => by
      by_cases htc : t = s.term c
      · rw [htc, s.won_leaderLog_self, s.won_leaderCommit_self]
        exact h.commit_le c
      · rw [s.won_leaderLog_of_ne htc, s.won_leaderCommit_of_ne htc]
        exact h.leader_commit_le t ((s.led_won_iff htc).mp ht)
    leader_settled := fun t ht => by
      by_cases htc : t = s.term c
      · rw [htc, s.won_leaderLog_self, s.won_leaderCommit_self]
        exact h.settled_extend ha.toExtends (h.settled c)
      · rw [s.won_leaderLog_of_ne htc, s.won_leaderCommit_of_ne htc]
        exact h.settled_extend ha.toExtends (h.leader_settled t ((s.led_won_iff htc).mp ht))
    chosen_ok := fun t n hc => by
      have hne : t ≠ s.term c := fun heq => hvacant (heq ▸ (h.chosen_ok t n hc).1)
      exact h.chosen_amend ha hc (s.won_leaderCommit_of_ne hne).ge
    acked_ok := fun t v hv => h.acked_won hvacant hv
    kept := fun t v n hn hstamp => by
      have hled := (h.acked_won hvacant (Nat.zero_lt_of_lt hn)).2.1
      have hne := (hfollows.stamped_before hvacant hled hstamp).1
      rw [s.won_acked_of_ne fun hboth => hne hboth.1] at hn
      exact h.kept_amend ha rfl hn hstamp
    backed := fun u v d hb => by
      obtain ⟨l, hl, hback⟩ := h.backed u v d hb
      have hle := h.election.ballot_le u v (ne_of_eq_of_ne hb (Option.some_ne_none d))
      exact ⟨l, hl, h.backed_amend ha hback fun t ht => ha.acked_past t v (by omega)⟩
    covers := fun u t n hu htu hstamp ht => by
      obtain ⟨htc, hled⟩ := hfollows.stamped_before hvacant ht hstamp
      by_cases huc : u = s.term c
      · subst huc
        rw [s.won_leaderLog_of_ne htc] at hstamp
        exact h.covers_won hstanding hvacant hQ hvotes htu hled hstamp
      · exact h.covers_amend ha ((s.led_won_iff huc).mp hu) hled htu hstamp }

end Office

end ConsensusLab.Foundation
