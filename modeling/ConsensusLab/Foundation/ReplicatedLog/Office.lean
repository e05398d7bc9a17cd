import ConsensusLab.Foundation.ReplicatedLog.Campaign

/-!
# Steps of a leader in office

A leader extends its own log with entries of its own term and counts confirmations.
Both change the records of its term only.
-/

namespace ConsensusLab.Foundation

section State

variable {Id E : Type*} [DecidableEq Id]

/-- The state after a leader has appended an entry to its log. -/
def LogState.appended (s : LogState Id E) (c : Id) (e : E) : LogState Id E :=
  { s with
    log := Function.update s.log c (s.log c ++ [e])
    leaderLog := Function.update s.leaderLog (s.term c) (s.log c ++ [e])
    acked := setAt s.acked (s.term c) c ((s.log c).length + 1) }

/-- The leader's own log. -/
theorem LogState.appended_log_self (s : LogState Id E) (c : Id) (e : E) : (s.appended c e).log c = s.log c ++ [e] :=
  Function.update_self ..

/-- The other logs. -/
theorem LogState.appended_log_of_ne (s : LogState Id E) {c v : Id} (e : E) (hv : v ≠ c) :
    (s.appended c e).log v = s.log v :=
  Function.update_of_ne hv _ _

/-- The log on record for the leader's term. -/
theorem LogState.appended_leaderLog_self (s : LogState Id E) (c : Id) (e : E) :
    (s.appended c e).leaderLog (s.term c) = s.log c ++ [e] :=
  Function.update_self ..

/-- The logs on record for other terms. -/
theorem LogState.appended_leaderLog_of_ne (s : LogState Id E) {c : Id} (e : E) {t : ℕ} (ht : t ≠ s.term c) :
    (s.appended c e).leaderLog t = s.leaderLog t :=
  Function.update_of_ne ht _ _

/-- The leader confirms its own entry. -/
theorem LogState.appended_acked_self (s : LogState Id E) (c : Id) (e : E) :
    (s.appended c e).acked (s.term c) c = (s.log c).length + 1 :=
  setAt_self ..

/-- The other confirmations. -/
theorem LogState.appended_acked_of_ne (s : LogState Id E) {c v : Id} (e : E) {t : ℕ} (htv : ¬(t = s.term c ∧ v = c)) :
    (s.appended c e).acked t v = s.acked t v :=
  setAt_of_ne _ _ htv

/-- The logs of participants only grow. -/
theorem LogState.prefix_appended (s : LogState Id E) (c : Id) (e : E) (v : Id) : s.log v <+: (s.appended c e).log v := by
  by_cases hvc : v = c
  · subst hvc
    rw [s.appended_log_self]
    exact List.prefix_append _ _
  · rw [s.appended_log_of_ne e hvc]

/-- The state after a leader has counted a quorum for a position. -/
def LogState.advanced (s : LogState Id E) (c : Id) (n : ℕ) : LogState Id E :=
  { s with
    commit := Function.update s.commit c (n + 1)
    leaderCommit := Function.update s.leaderCommit (s.term c) (n + 1)
    chosen := fun t i => (t = s.term c ∧ i = n) ∨ s.chosen t i }

/-- The leader's commit position. -/
theorem LogState.advanced_commit_self (s : LogState Id E) (c : Id) (n : ℕ) : (s.advanced c n).commit c = n + 1 :=
  Function.update_self ..

/-- The other commit positions. -/
theorem LogState.advanced_commit_of_ne (s : LogState Id E) {c v : Id} {n : ℕ} (hv : v ≠ c) :
    (s.advanced c n).commit v = s.commit v :=
  Function.update_of_ne hv _ _

/-- The commit position on record for the leader's term. -/
theorem LogState.advanced_leaderCommit_self (s : LogState Id E) (c : Id) (n : ℕ) :
    (s.advanced c n).leaderCommit (s.term c) = n + 1 :=
  Function.update_self ..

/-- The commit positions on record for other terms. -/
theorem LogState.advanced_leaderCommit_of_ne (s : LogState Id E) {c : Id} {n t : ℕ} (ht : t ≠ s.term c) :
    (s.advanced c n).leaderCommit t = s.leaderCommit t :=
  Function.update_of_ne ht _ _

end State

variable {Id E : Type*} [Stamped E] {quorums : QuorumSystem Id} {s : LogState Id E}

/-- A leader in office is the leader on record of its term. -/
theorem LogInvariant.led_of_office (h : LogInvariant quorums s) {c : Id}
    (hstanding : s.standing c = .leader) : s.Led (s.term c) := by
  rw [LogState.Led, h.election.in_office c hstanding]
  exact Option.some_ne_none c

/-- Two participants in office in one term are the same. -/
theorem LogInvariant.office_unique (h : LogInvariant quorums s) {c d : Id}
    (hc : s.standing c = .leader) (hd : s.standing d = .leader) (hterm : s.term d = s.term c) :
    d = c := by
  have hleft := h.election.in_office c hc
  have hright := h.election.in_office d hd
  rw [hterm, hleft] at hright
  exact (Option.some.inj hright).symm

/-- The last term after appending an entry. -/
theorem lastTerm_append_singleton (l : List E) (e : E) : lastTerm (l ++ [e]) = Stamped.stamp e := by
  simp [lastTerm]

/-- A log that follows the leaders still does after a leader appended to it. -/
theorem LogState.Follows.append {base bound : ℕ} {l : List E} {e : E} (h : s.Follows base bound l)
    (hbound : Stamped.stamp e ≤ bound) (hled : s.Led (Stamped.stamp e))
    (hlead : s.leaderLog (Stamped.stamp e) = l ++ [e]) : s.Follows base bound (l ++ [e]) := by
  intro j t hj ht
  rcases Nat.lt_or_ge j l.length with hin | hout
  · rw [termAt_congr (List.getElem?_append_left hin)] at ht
    obtain ⟨hle, hl, hsame⟩ := h j t hj ht
    refine ⟨hle, hl, fun i hi hij => ?_⟩
    rw [List.getElem?_append_left (by omega), hsame i hi hij]
  · have hjl : j = l.length := by
      have := lt_length_of_termAt ht
      rw [List.length_append, List.length_singleton] at this
      omega
    rw [hjl, termAt, List.getElem?_append_right le_rfl, Nat.sub_self, List.getElem?_cons_zero,
      Option.map_some] at ht
    cases ht
    exact ⟨hbound, hled, fun i _ _ => by rw [hlead]⟩

variable [DecidableEq Id]

section Append

variable {c : Id} {e : E}

/-- The leader's log is what is on record, extended by an entry of its term. -/
theorem LogInvariant.amends_appended (h : LogInvariant quorums s) (hstanding : s.standing c = .leader)
    (hstamp : Stamped.stamp e = s.term c) : s.Amends (s.appended c e) where
  led _ ht := ht
  logs t _ := by
    by_cases ht : t = s.term c
    · rw [ht, s.appended_leaderLog_self, h.office_log c hstanding]
      exact List.prefix_append _ _
    · rw [s.appended_leaderLog_of_ne e ht]
  chosen _ _ hc := hc
  own t j x _ hj hx := by
    by_cases ht : t = s.term c
    · subst ht
      rw [s.appended_leaderLog_self, h.office_log c hstanding, List.getElem?_append_right hj] at hx
      rw [← List.mem_singleton.mp (List.mem_of_getElem? hx)] at hstamp
      exact hstamp
    · rw [s.appended_leaderLog_of_ne e ht, List.getElem?_eq_none hj] at hx
      cases hx
  term_le _ := le_rfl
  acked_le t v := by
    by_cases htv : t = s.term c ∧ v = c
    · rw [htv.1, htv.2, s.appended_acked_self, h.office_log c hstanding]
      exact (h.acked_le (s.term c) c).trans (Nat.le_succ _)
    · rw [s.appended_acked_of_ne e htv]
  acked_past t v ht := s.appended_acked_of_ne e (by rintro ⟨rfl, rfl⟩; exact absurd ht (Nat.lt_irrefl _))

/-- Leaders' logs still follow the leaders. -/
theorem LogInvariant.leader_follows_appended (h : LogInvariant quorums s) (hstanding : s.standing c = .leader)
    (hstamp : Stamped.stamp e = s.term c) {t : ℕ} (hled : s.Led t) :
    (s.appended c e).Follows 0 t ((s.appended c e).leaderLog t) := by
  have hbase := (h.leader_follows t hled).extend (h.amends_appended hstanding hstamp).toExtends
  by_cases htc : t = s.term c
  · rw [htc, ← h.office_log c hstanding, ← hstamp] at hbase
    rw [htc, s.appended_leaderLog_self, ← hstamp]
    refine hbase.append le_rfl ?_ ?_
    · rw [hstamp]
      exact h.led_of_office hstanding
    · rw [hstamp, s.appended_leaderLog_self]
  · rw [s.appended_leaderLog_of_ne e htc]
    exact hbase

/-- So do the logs of all participants. -/
theorem LogInvariant.node_follows_appended (h : LogInvariant quorums s) (hstanding : s.standing c = .leader)
    (hstamp : Stamped.stamp e = s.term c) (v : Id) :
    (s.appended c e).Follows (s.snap v) (s.term v) ((s.appended c e).log v) := by
  have hbase := (h.node_follows v).extend (h.amends_appended hstanding hstamp).toExtends
  by_cases hvc : v = c
  · subst hvc
    rw [s.appended_log_self]
    refine hbase.append hstamp.le ?_ ?_
    · rw [hstamp]
      exact h.led_of_office hstanding
    · rw [hstamp, s.appended_leaderLog_self]
  · rw [s.appended_log_of_ne e hvc]
    exact hbase

/-- The leader keeps what it has confirmed, in its own term and before. -/
theorem LogInvariant.kept_appended (h : LogInvariant quorums s) (hstanding : s.standing c = .leader)
    (hstamp : Stamped.stamp e = s.term c) {t n : ℕ} (hn : n < (s.appended c e).acked t c)
    (hterm : termAt ((s.appended c e).leaderLog t) n = some t) : (s.appended c e).Kept c t n := by
  have ha := h.amends_appended hstanding hstamp
  have hlast : lastTerm (s.log c ++ [e]) = s.term c := (lastTerm_append_singleton _ _).trans hstamp
  by_cases htc : t = s.term c
  · subst htc
    rw [s.appended_acked_self] at hn
    left
    rw [s.appended_log_self, s.appended_leaderLog_self]
    refine ⟨AgreeBelow.refl _ _, Or.inr ⟨hlast, ?_⟩⟩
    rw [List.length_append, List.length_singleton]
    exact hn
  · rw [s.appended_acked_of_ne e fun hboth => htc hboth.1] at hn
    obtain ⟨hled, hin, hsame⟩ := h.acked_amend ha hn
    have hle := (h.acked_ok t c (by omega)).1
    rcases h.kept t c n hn (hsame ▸ hterm) with ⟨hagree, _⟩ | ⟨u, hu, hlost⟩
    · left
      rw [s.appended_log_self]
      refine ⟨(agreeBelow_append [e] (hagree.symm.le_length hin)).trans (ha.agree hled hin hagree), Or.inl ?_⟩
      rw [hlast]
      omega
    · exact Or.inr ⟨u, hu, h.lost_amend ha hled hin hlost⟩

/-- Appending an entry of the leader's own term keeps the invariant. -/
theorem LogInvariant.append (h : LogInvariant quorums s) (hstanding : s.standing c = .leader)
    (hstamp : Stamped.stamp e = s.term c) :
    LogInvariant quorums { s with
      log := Function.update s.log c (s.log c ++ [e])
      leaderLog := Function.update s.leaderLog (s.term c) (s.log c ++ [e])
      acked := setAt s.acked (s.term c) c ((s.log c).length + 1) } := by
  have ha := h.amends_appended hstanding hstamp
  change LogInvariant quorums (s.appended c e)
  exact {
    election := h.election
    polled_le := h.polled_le
    candidate_log := fun v hv => by
      rw [s.appended_log_of_ne e (by rintro rfl; cases hv.symm.trans hstanding)]
      exact h.candidate_log v hv
    office_log := fun v hv => by
      by_cases hvc : v = c
      · rw [hvc]
        exact (s.appended_log_self c e).trans (s.appended_leaderLog_self c e).symm
      · have hterm : s.term v ≠ s.term c := fun heq => hvc (h.office_unique hstanding hv heq)
        rw [s.appended_log_of_ne e hvc, h.office_log v hv]
        exact (s.appended_leaderLog_of_ne e hterm).symm
    office_commit := h.office_commit
    leader_follows := fun t ht => h.leader_follows_appended hstanding hstamp ht
    node_follows := h.node_follows_appended hstanding hstamp
    snap_le := h.snap_le
    commit_le := fun v => (h.commit_le v).trans (s.prefix_appended c e v).length_le
    settled := fun v => (h.settled_extend ha.toExtends (h.settled v)).lengthen (h.commit_le v) (s.prefix_appended c e v)
    leader_commit_le := fun t ht => (h.leader_commit_le t ht).trans (ha.logs t ht).length_le
    leader_settled := fun t ht =>
      (h.settled_extend ha.toExtends (h.leader_settled t ht)).lengthen (h.leader_commit_le t ht) (ha.logs t ht)
    chosen_ok := fun t n hc => h.chosen_amend ha hc le_rfl
    acked_ok := fun t v hv => by
      by_cases htv : t = s.term c ∧ v = c
      · rw [htv.1, htv.2, s.appended_acked_self, s.appended_leaderLog_self, List.length_append, List.length_singleton]
        exact ⟨le_rfl, h.led_of_office hstanding, le_rfl⟩
      · rw [s.appended_acked_of_ne e htv] at hv ⊢
        exact h.acked_ok_amend ha hv
    kept := fun t v n hn hterm => by
      by_cases hvc : v = c
      · subst hvc
        exact h.kept_appended hstanding hstamp hn hterm
      · rw [s.appended_acked_of_ne e fun hboth => hvc hboth.2] at hn
        exact h.kept_amend ha (s.appended_log_of_ne e hvc) hn hterm
    backed := fun u v d hb => by
      obtain ⟨l, hl, hback⟩ := h.backed u v d hb
      have hle := h.election.ballot_le u v (ne_of_eq_of_ne hb (Option.some_ne_none d))
      exact ⟨l, hl, h.backed_amend ha hback fun t ht => ha.acked_past t v (by omega)⟩
    covers := fun u t n hu htu hterm ht => h.covers_amend ha hu ht htu hterm }

end Append

section Advance

variable {c : Id} {n : ℕ}

/-- The position that the leader has counted is settled. -/
theorem LogInvariant.settled_advanced (h : LogInvariant quorums s) (hstanding : s.standing c = .leader) :
    (s.advanced c n).Settled (s.term c) (n + 1) (s.log c) := by
  refine Or.inr ⟨s.term c, n, le_rfl, Or.inl ⟨rfl, rfl⟩, le_rfl, ?_⟩
  rw [h.office_log c hstanding]
  exact AgreeBelow.refl _ _

/-- Commit positions on record do not decrease. -/
theorem LogInvariant.leaderCommit_le_advanced (h : LogInvariant quorums s) (hstanding : s.standing c = .leader)
    (hnew : s.commit c ≤ n) (t : ℕ) : s.leaderCommit t ≤ (s.advanced c n).leaderCommit t := by
  by_cases htc : t = s.term c
  · rw [htc, s.advanced_leaderCommit_self, ← h.office_commit c hstanding]
    omega
  · rw [s.advanced_leaderCommit_of_ne htc]

/-- Counting a quorum for an entry of the leader's own term keeps the invariant. -/
theorem LogInvariant.advance (h : LogInvariant quorums s) {Q : Finset Id}
    (hstanding : s.standing c = .leader) (hnew : s.commit c ≤ n)
    (hstamp : termAt (s.log c) n = some (s.term c)) (hQ : quorums.IsQuorum Q)
    (hconfirmed : ∀ v ∈ Q, n < s.acked (s.term c) v) :
    LogInvariant quorums { s with
      commit := Function.update s.commit c (n + 1)
      leaderCommit := Function.update s.leaderCommit (s.term c) (n + 1)
      chosen := fun t i => (t = s.term c ∧ i = n) ∨ s.chosen t i } := by
  have hoffice := h.office_log c hstanding
  have hn := lt_length_of_termAt hstamp
  have ha : s.Amends (s.advanced c n) :=
    .of_eq rfl rfl (fun _ _ hc => Or.inr hc) (fun _ => le_rfl) (fun _ _ => le_rfl) fun _ _ _ => rfl
  change LogInvariant quorums (s.advanced c n)
  exact {
    election := h.election
    polled_le := h.polled_le
    candidate_log := h.candidate_log
    office_log := h.office_log
    office_commit := fun v hv => by
      by_cases hvc : v = c
      · rw [hvc]
        exact (s.advanced_commit_self c n).trans (s.advanced_leaderCommit_self c n).symm
      · have hterm : s.term v ≠ s.term c := fun heq => hvc (h.office_unique hstanding hv heq)
        rw [s.advanced_commit_of_ne hvc, h.office_commit v hv]
        exact (s.advanced_leaderCommit_of_ne hterm).symm
    leader_follows := h.leader_follows
    node_follows := h.node_follows
    snap_le := fun v => by
      have hsnap := h.snap_le v
      by_cases hvc : v = c
      · subst hvc
        rw [s.advanced_commit_self]
        change s.snap v ≤ n + 1
        omega
      · rwa [s.advanced_commit_of_ne hvc]
    commit_le := fun v => by
      by_cases hvc : v = c
      · rw [hvc, s.advanced_commit_self]
        exact hn
      · rw [s.advanced_commit_of_ne hvc]
        exact h.commit_le v
    settled := fun v => by
      by_cases hvc : v = c
      · rw [hvc, s.advanced_commit_self]
        exact h.settled_advanced hstanding
      · rw [s.advanced_commit_of_ne hvc]
        exact h.settled_extend ha.toExtends (h.settled v)
    leader_commit_le := fun t ht => by
      by_cases htc : t = s.term c
      · rw [htc, s.advanced_leaderCommit_self]
        exact hoffice ▸ hn
      · rw [s.advanced_leaderCommit_of_ne htc]
        exact h.leader_commit_le t ht
    leader_settled := fun t ht => by
      by_cases htc : t = s.term c
      · rw [htc, s.advanced_leaderCommit_self]
        exact hoffice ▸ h.settled_advanced hstanding
      · rw [s.advanced_leaderCommit_of_ne htc]
        exact h.settled_extend ha.toExtends (h.leader_settled t ht)
    chosen_ok := fun t i hi => by
      rcases hi with ⟨rfl, rfl⟩ | hold
      · rw [s.advanced_leaderCommit_self]
        exact ⟨h.led_of_office hstanding, hoffice ▸ hstamp, Nat.lt_succ_self i, Q, hQ, hconfirmed⟩
      · exact h.chosen_amend ha hold (h.leaderCommit_le_advanced hstanding hnew t)
    acked_ok := h.acked_ok
    kept := h.kept
    backed := h.backed
    covers := h.covers }

end Advance

end ConsensusLab.Foundation
