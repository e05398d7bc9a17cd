import ConsensusLab.Foundation.ReplicatedLog.Campaign

/-!
# Steps of a follower

Accepting entries and installing a snapshot replace one participant's log. Both are
instances of one rule, `LogInvariant.refit`, which asks only for facts about the new
log. They hold because committed positions agree with the leader's log, because equal
terms at a position beyond the snapshot mean equal logs from the snapshot up to it, and
because a kept position disappears only when the leader itself lacks it.
-/

namespace ConsensusLab.Foundation

section State

variable {Id E : Type*} [DecidableEq Id] {l : List E} {snap commit acked : ℕ}

/-- The state in which a follower has another log, snapshot and commit position and has confirmed so much of the log of
its term's leader. -/
def LogState.refitted (s : LogState Id E) (v : Id) (l : List E) (snap commit acked : ℕ) : LogState Id E :=
  { s with
    standing := Function.update s.standing v .follower
    log := Function.update s.log v l
    snap := Function.update s.snap v snap
    commit := Function.update s.commit v commit
    acked := setAt s.acked (s.term v) v acked }

/-- What the follower has now. -/
theorem LogState.refitted_self (s : LogState Id E) (v : Id) (l : List E) (snap commit acked : ℕ) :
    (s.refitted v l snap commit acked).log v = l ∧ (s.refitted v l snap commit acked).snap v = snap ∧
      (s.refitted v l snap commit acked).commit v = commit :=
  ⟨Function.update_self .., Function.update_self .., Function.update_self ..⟩

/-- What the others have. -/
theorem LogState.refitted_of_ne (s : LogState Id E) {v w : Id} (hw : w ≠ v) :
    (s.refitted v l snap commit acked).log w = s.log w ∧ (s.refitted v l snap commit acked).snap w = s.snap w ∧
      (s.refitted v l snap commit acked).commit w = s.commit w :=
  ⟨Function.update_of_ne hw _ _, Function.update_of_ne hw _ _, Function.update_of_ne hw _ _⟩

/-- Whoever is no follower is another participant and has its standing from before. -/
theorem LogState.standing_of_refitted (s : LogState Id E) {v w : Id} {standing : Standing}
    (hw : (s.refitted v l snap commit acked).standing w = standing) (hne : standing ≠ .follower) :
    w ≠ v ∧ s.standing w = standing := by
  have hwv : w ≠ v := by
    rintro rfl
    exact hne (hw.symm.trans (Function.update_self ..))
  exact ⟨hwv, (Function.update_of_ne hwv _ _).symm.trans hw⟩

/-- What the follower has confirmed now. -/
theorem LogState.refitted_acked_self (s : LogState Id E) {v : Id} :
    (s.refitted v l snap commit acked).acked (s.term v) v = acked :=
  setAt_self ..

/-- The other confirmations. -/
theorem LogState.refitted_acked_of_ne (s : LogState Id E) {v w : Id} {t : ℕ} (htw : ¬(t = s.term v ∧ w = v)) :
    (s.refitted v l snap commit acked).acked t w = s.acked t w :=
  setAt_of_ne _ _ htw

end State

variable {Id E : Type*} [Stamped E] {quorums : QuorumSystem Id} {s s' : LogState Id E}

/-- Merging into a log that already agrees up to where the comparison starts, and in which equal
terms mean equal entries, leaves the log alone or produces the leader's log. -/
theorem Merges.cases {snap p m : ℕ} {lead l l' : List E} (h : Merges snap p m lead l l')
    (hstart : AgreeBelow (max p snap) l lead)
    (hsame : ∀ j t, snap ≤ j → termAt l j = some t → termAt lead j = some t →
      ∀ i, snap ≤ i → i ≤ j → l[i]? = lead[i]?) :
    (l' = l ∧ m ≤ l.length ∧ AgreeBelow m l lead) ∨
      (l' = lead.take m ∧ ∃ k < m, snap ≤ k ∧ k ≤ l.length ∧ l[k]? ≠ lead[k]?) := by
  have hagree : ∀ k, k ≤ l.length → (∀ j, max p snap ≤ j → j < k → termAt l j = termAt lead j) →
      AgreeBelow k l lead := by
    intro k hk hterms j hj
    rcases Nat.lt_or_ge j (max p snap) with hlow | hhigh
    · exact hstart j hlow
    · obtain ⟨t, ht⟩ := exists_termAt (show j < l.length by omega)
      exact hsame j t (by omega) ht (by rw [← hterms j hhigh hj, ht]) j (by omega) le_rfl
  rcases h with ⟨rfl, hlen, hterms⟩ | ⟨k, hkstart, hkm, hklen, hdiff, hterms, rfl⟩
  · exact Or.inl ⟨rfl, hlen, hagree m hlen hterms⟩
  · refine Or.inr ⟨?_, k, hkm, by omega, hklen, fun heq => hdiff (termAt_congr heq)⟩
    rw [(hagree k hklen hterms).take_eq]
    have hcut : lead.take k = (lead.take m).take k := by rw [List.take_take, Nat.min_eq_left hkm.le]
    rw [hcut, List.take_append_drop]

/-- The part of a leader's log up to a position ends at least at every earlier position. -/
theorem LogInvariant.take_ends (h : LogInvariant quorums s) {u m t n : ℕ} (hled : s.Led u)
    (hm : m ≤ (s.leaderLog u).length) (hn : n < m) (hstamp : termAt (s.leaderLog u) n = some t) :
    EndsAtLeast ((s.leaderLog u).take m) t n := by
  have hlen : ((s.leaderLog u).take m).length = m := by rw [List.length_take, Nat.min_eq_left hm]
  have hlast := termAt_last (show 0 < ((s.leaderLog u).take m).length by omega)
  rw [hlen, termAt_congr (agreeBelow_take le_rfl (m - 1) (by omega))] at hlast
  have hle := h.leader_sorted hled hstamp hlast (by omega)
  rcases Nat.eq_or_lt_of_le hle with heq | hlt
  · exact Or.inr ⟨heq.symm, by omega⟩
  · exact Or.inl hlt

/-- The part of a leader's log up to a position follows the leaders. -/
theorem LogInvariant.take_follows (h : LogInvariant quorums s) {u : ℕ} (m base : ℕ) (hled : s.Led u) :
    s.Follows base u ((s.leaderLog u).take m) := by
  intro j t _ ht
  have hj : j < m := by
    have := lt_length_of_termAt ht
    rw [List.length_take] at this
    omega
  rw [termAt_congr (agreeBelow_take le_rfl j hj)] at ht
  obtain ⟨hle, hl, hsame⟩ := h.leader_follows u hled j t (Nat.zero_le _) ht
  refine ⟨hle, hl, fun i _ hij => ?_⟩
  rw [agreeBelow_take (l := s.leaderLog u) le_rfl i (show i < m by omega), hsame i (Nat.zero_le _) hij]

/-- A position that a participant keeps and its term's leader holds is still kept after the log
became the leader's up to some position, provided that position is not before it. -/
theorem LogInvariant.kept_take (h : LogInvariant quorums s) {v : Id} {t n m : ℕ}
    (hled : s.Led (s.term v)) (hm : m ≤ (s.leaderLog (s.term v)).length) (hn : n < m)
    (hstamp : termAt (s.leaderLog t) n = some t)
    (hheld : AgreeBelow (n + 1) (s.leaderLog (s.term v)) (s.leaderLog t)) :
    AgreeBelow (n + 1) ((s.leaderLog (s.term v)).take m) (s.leaderLog t) ∧
      EndsAtLeast ((s.leaderLog (s.term v)).take m) t n := by
  refine ⟨(agreeBelow_take hn).trans hheld, h.take_ends hled hm hn ?_⟩
  rw [termAt_congr (hheld n (by omega)), hstamp]

/-- A confirmed position is held by the leader of the participant's current term, or that leader
lacks it. -/
theorem LogInvariant.held_or_lost (h : LogInvariant quorums s) {v : Id} {t n : ℕ}
    (hled : s.Led (s.term v)) (hn : n < s.acked t v) :
    AgreeBelow (n + 1) (s.leaderLog (s.term v)) (s.leaderLog t) ∨ ∃ u ≤ s.term v, s.Lost t n u := by
  by_cases hheld : AgreeBelow (n + 1) (s.leaderLog (s.term v)) (s.leaderLog t)
  · exact Or.inl hheld
  · have hle := (h.acked_ok t v (by omega)).1
    rcases Nat.eq_or_lt_of_le hle with rfl | hlt
    · exact absurd (AgreeBelow.refl _ _) hheld
    · exact Or.inr ⟨s.term v, le_rfl, hlt, hled, hheld⟩

variable [DecidableEq Id]

section Refit

variable {v : Id} {l : List E} {snap commit acked : ℕ}

/-- Leaders and their logs stay as they are, and only confirmations in the participant's own term are new. -/
theorem LogState.amends_refitted (hmore : s.acked (s.term v) v ≤ acked) :
    s.Amends (s.refitted v l snap commit acked) := by
  refine .of_eq rfl rfl (fun _ _ hc => hc) (fun _ => le_rfl) (fun t w => ?_) fun t w ht => ?_
  · by_cases htw : t = s.term v ∧ w = v
    · rw [htw.1, htw.2, s.refitted_acked_self]
      exact hmore
    · rw [s.refitted_acked_of_ne htw]
  · exact s.refitted_acked_of_ne (by rintro ⟨rfl, rfl⟩; exact absurd ht (Nat.lt_irrefl _))

/-- What the participant has confirmed, before or now, it keeps. -/
theorem LogInvariant.kept_refitted (h : LogInvariant quorums s) (hmore : s.acked (s.term v) v ≤ acked)
    (hkept : ∀ t n, n < s.acked t v ∨ (t = s.term v ∧ n < acked) → termAt (s.leaderLog t) n = some t →
      (AgreeBelow (n + 1) l (s.leaderLog t) ∧ EndsAtLeast l t n) ∨ ∃ u ≤ s.term v, s.Lost t n u) {t n : ℕ} {w : Id}
    (hn : n < (s.refitted v l snap commit acked).acked t w) (hstamp : termAt (s.leaderLog t) n = some t) :
    (s.refitted v l snap commit acked).Kept w t n := by
  by_cases hwv : w = v
  · subst hwv
    have hcase : n < s.acked t w ∨ (t = s.term w ∧ n < acked) := by
      by_cases ht : t = s.term w
      · subst ht
        rw [s.refitted_acked_self] at hn
        exact Or.inr ⟨rfl, hn⟩
      · rw [s.refitted_acked_of_ne fun hboth => ht hboth.1] at hn
        exact Or.inl hn
    rw [LogState.Kept, (s.refitted_self w l snap commit acked).1]
    exact hkept t n hcase hstamp
  · rw [s.refitted_acked_of_ne fun hboth => hwv hboth.2] at hn
    exact h.kept_amend (LogState.amends_refitted hmore) (s.refitted_of_ne hwv).1 hn hstamp

/-- Replacing the log, snapshot and commit position of one participant that is not in office, and
possibly recording a longer confirmation in its current term. -/
theorem LogInvariant.refit (h : LogInvariant quorums s) (hled : s.Led (s.term v))
    (hfollows : s.Follows snap (s.term v) l) (hsnap : snap ≤ commit) (hcommit : commit ≤ l.length)
    (hsettled : s.Settled (s.term v) commit l) (hmore : s.acked (s.term v) v ≤ acked)
    (hacked : acked ≤ (s.leaderLog (s.term v)).length)
    (hkept : ∀ t n, n < s.acked t v ∨ (t = s.term v ∧ n < acked) →
      termAt (s.leaderLog t) n = some t →
      (AgreeBelow (n + 1) l (s.leaderLog t) ∧ EndsAtLeast l t n) ∨ ∃ u ≤ s.term v, s.Lost t n u) :
    LogInvariant quorums (s.refitted v l snap commit acked) := by
  have ha : s.Amends (s.refitted v l snap commit acked) := LogState.amends_refitted hmore
  obtain ⟨hlogv, hsnapv, hcommitv⟩ := s.refitted_self v l snap commit acked
  exact {
    election := h.election.step (.demote _ v)
    polled_le := h.polled_le
    candidate_log := fun w hw => by
      obtain ⟨hwv, hold⟩ := s.standing_of_refitted hw (by decide)
      rw [(s.refitted_of_ne hwv).1]
      exact h.candidate_log w hold
    office_log := fun w hw => by
      obtain ⟨hwv, hold⟩ := s.standing_of_refitted hw (by decide)
      rw [(s.refitted_of_ne hwv).1]
      exact h.office_log w hold
    office_commit := fun w hw => by
      obtain ⟨hwv, hold⟩ := s.standing_of_refitted hw (by decide)
      rw [(s.refitted_of_ne hwv).2.2]
      exact h.office_commit w hold
    leader_follows := h.leader_follows
    node_follows := fun w => by
      by_cases hwv : w = v
      · rw [hwv, hsnapv, hlogv]
        exact hfollows.extend ha.toExtends
      · rw [(s.refitted_of_ne hwv).1, (s.refitted_of_ne hwv).2.1]
        exact (h.node_follows w).extend ha.toExtends
    snap_le := fun w => by
      by_cases hwv : w = v
      · rwa [hwv, hsnapv, hcommitv]
      · rw [(s.refitted_of_ne hwv).2.1, (s.refitted_of_ne hwv).2.2]
        exact h.snap_le w
    commit_le := fun w => by
      by_cases hwv : w = v
      · rwa [hwv, hlogv, hcommitv]
      · rw [(s.refitted_of_ne hwv).1, (s.refitted_of_ne hwv).2.2]
        exact h.commit_le w
    settled := fun w => by
      by_cases hwv : w = v
      · rw [hwv, hlogv, hcommitv]
        exact h.settled_extend ha.toExtends hsettled
      · rw [(s.refitted_of_ne hwv).1, (s.refitted_of_ne hwv).2.2]
        exact h.settled_extend ha.toExtends (h.settled w)
    leader_commit_le := h.leader_commit_le
    leader_settled := h.leader_settled
    chosen_ok := fun t n hc => h.chosen_amend ha hc le_rfl
    acked_ok := fun t w hw => by
      by_cases htw : t = s.term v ∧ w = v
      · rw [htw.1, htw.2, s.refitted_acked_self]
        exact ⟨le_rfl, hled, hacked⟩
      · rw [s.refitted_acked_of_ne htw] at hw ⊢
        exact h.acked_ok_amend ha hw
    kept := fun t w n hn hstamp => h.kept_refitted hmore hkept hn hstamp
    backed := fun u w d hb => by
      obtain ⟨k, hk, hback⟩ := h.backed u w d hb
      have hle := h.election.ballot_le u w (ne_of_eq_of_ne hb (Option.some_ne_none d))
      exact ⟨k, hk, h.backed_amend ha hback fun t ht => ha.acked_past t w (by omega)⟩
    covers := fun u t n hu htu hstamp ht => h.covers_amend ha hu ht htu hstamp }

end Refit

omit [DecidableEq Id] in
/-- A participant that has the term of its leader's entry at a position behind its snapshot agrees with
the leader up to there. -/
theorem LogInvariant.agrees_of_term (h : LogInvariant quorums s) {v : Id} {j t : ℕ}
    (hled : s.Led (s.term v)) (hsnap : s.snap v ≤ j) (hown : termAt (s.log v) j = some t)
    (hlead : termAt (s.leaderLog (s.term v)) j = some t) :
    AgreeBelow (j + 1) (s.log v) (s.leaderLog (s.term v)) := by
  intro i hi
  rcases Nat.lt_or_ge i (s.snap v) with hlow | hhigh
  · exact h.commit_agrees hled i (hlow.trans_le (h.snap_le v))
  · obtain ⟨_, _, hleft⟩ := h.node_follows v j t hsnap hown
    obtain ⟨_, _, hright⟩ := h.leader_follows _ hled j t (Nat.zero_le _) hlead
    exact (hleft i hhigh (by omega)).trans (hright i (Nat.zero_le _) (by omega)).symm

/-- What merging leaves: the old log where it already agrees with the leader's entries, or exactly these. -/
def LogState.Merged (s : LogState Id E) (v : Id) (m : ℕ) (l : List E) : Prop :=
  (l = s.log v ∧ m ≤ (s.log v).length ∧ AgreeBelow m (s.log v) (s.leaderLog (s.term v))) ∨
    (l = (s.leaderLog (s.term v)).take m ∧ ∃ k < m, s.snap v ≤ k ∧ k ≤ (s.log v).length ∧
      (s.log v)[k]? ≠ (s.leaderLog (s.term v))[k]?)

omit [DecidableEq Id] in
/-- Merging the current leader's entries after a successful comparison of the preceding one. -/
theorem LogInvariant.merged (h : LogInvariant quorums s) {v : Id} {p m : ℕ} {l : List E}
    (hled : s.Led (s.term v))
    (hprev : s.snap v < p → p ≤ (s.log v).length ∧
      termAt (s.log v) (p - 1) = termAt (s.leaderLog (s.term v)) (p - 1))
    (hmerge : Merges (s.snap v) p m (s.leaderLog (s.term v)) (s.log v) l) :
    s.Merged v m l := by
  have hcom := h.commit_agrees hled
  have hsnap := h.snap_le v
  have hsame : ∀ j t, s.snap v ≤ j → termAt (s.log v) j = some t →
      termAt (s.leaderLog (s.term v)) j = some t →
      ∀ i, s.snap v ≤ i → i ≤ j → (s.log v)[i]? = (s.leaderLog (s.term v))[i]? := by
    intro j t hj hnode hlead i _ hij
    exact h.agrees_of_term hled hj hnode hlead i (by omega)
  have hstart : AgreeBelow (max p (s.snap v)) (s.log v) (s.leaderLog (s.term v)) := by
    intro j hj
    rcases Nat.lt_or_ge j (s.snap v) with hlow | hhigh
    · exact hcom j (by omega)
    · obtain ⟨hplen, hpterm⟩ := hprev (by omega)
      obtain ⟨t, ht⟩ := exists_termAt (show p - 1 < (s.log v).length by omega)
      exact hsame (p - 1) t (by omega) ht (by rw [← hpterm, ht]) j hhigh (by omega)
  exact hmerge.cases hstart hsame

section Accept

variable {v : Id} {p m k : ℕ} {l : List E}

omit [DecidableEq Id] in
/-- What a follower has committed, and what it learns is committed of entries that agree with the leader's, is
settled. -/
theorem LogInvariant.settled_max (h : LogInvariant quorums s) (hled : s.Led (s.term v))
    (hcommit : k ≤ s.leaderCommit (s.term v))
    (hcommon : AgreeBelow (max (s.commit v) k) l (s.leaderLog (s.term v))) :
    s.Settled (s.term v) (max (s.commit v) k) l := by
  rcases Nat.le_total k (s.commit v) with hle | hle
  · rw [Nat.max_eq_left hle] at hcommon ⊢
    rcases h.settled v with hzero | ⟨t, n, ht, hc, hkn, hag⟩
    · exact Or.inl hzero
    · exact Or.inr ⟨t, n, ht, hc, hkn, hcommon.trans ((h.commit_agrees hled).symm.trans hag)⟩
  · rw [Nat.max_eq_right hle] at hcommon ⊢
    rcases (h.leader_settled _ hled).mono le_rfl hcommit with hzero | ⟨t, n, ht, hc, hkn, hag⟩
    · exact Or.inl hzero
    · exact Or.inr ⟨t, n, ht, hc, hkn, hcommon.trans hag⟩

omit [Stamped E] [DecidableEq Id] in
/-- The merged log agrees with the leader's entries. -/
theorem LogState.Merged.agree (hm : s.Merged v m l) : AgreeBelow m l (s.leaderLog (s.term v)) := by
  rcases hm with ⟨rfl, _, hagree⟩ | ⟨rfl, _⟩
  · exact hagree
  · exact agreeBelow_take le_rfl

omit [DecidableEq Id] in
/-- Nothing committed is cut off, and what is committed still agrees with the leader's log. -/
theorem LogInvariant.merged_commit (h : LogInvariant quorums s) (hled : s.Led (s.term v))
    (hm : m ≤ (s.leaderLog (s.term v)).length) (hmerged : s.Merged v m l) :
    max (s.commit v) m ≤ l.length ∧ AgreeBelow (max (s.commit v) m) l (s.leaderLog (s.term v)) := by
  have hcommitted := h.commit_agrees hled
  have hlen := h.commit_le v
  rcases hmerged with ⟨rfl, hml, hagree⟩ | ⟨rfl, i, him, _, hilen, hdiff⟩
  · refine ⟨by omega, fun j hj => ?_⟩
    rcases Nat.lt_or_ge j m with hlow | hhigh
    · exact hagree j hlow
    · exact hcommitted j (by omega)
  · have hbelow : s.commit v ≤ i := by
      by_contra hlt
      exact hdiff (hcommitted i (by omega))
    rw [List.length_take, Nat.min_eq_left hm, Nat.max_eq_right (by omega)]
    exact ⟨le_rfl, agreeBelow_take le_rfl⟩

omit [DecidableEq Id] in
/-- A merged log ends at least at each entry of the leader's term among those that were merged. -/
theorem LogInvariant.merged_ends (h : LogInvariant quorums s) (hled : s.Led (s.term v))
    (hm : m ≤ (s.leaderLog (s.term v)).length) (hmerged : s.Merged v m l) (hsnap : s.snap v < m) {n : ℕ} (hn : n < m)
    (hstamp : termAt (s.leaderLog (s.term v)) n = some (s.term v)) : EndsAtLeast l (s.term v) n := by
  rcases hmerged with ⟨rfl, hml, hagree⟩ | ⟨rfl, _⟩
  · have hpos : 0 < (s.log v).length := by omega
    obtain ⟨a, ha⟩ := exists_termAt (show m - 1 < (s.leaderLog (s.term v)).length by omega)
    have hle := h.leader_sorted hled hstamp ha (by omega)
    obtain ⟨_, hledx, hx⟩ :=
      h.node_follows v _ _ (show s.snap v ≤ (s.log v).length - 1 by omega) (termAt_last hpos)
    have hxm : termAt (s.leaderLog (lastTerm (s.log v))) (m - 1) = some a := by
      rw [← termAt_congr (hx (m - 1) (by omega) (by omega)), termAt_congr (hagree (m - 1) (by omega)), ha]
    have hax := (h.leader_follows _ hledx _ _ (Nat.zero_le _) hxm).1
    rcases Nat.lt_or_ge (s.term v) (lastTerm (s.log v)) with hlt | hge
    · exact Or.inl hlt
    · exact Or.inr ⟨by omega, by omega⟩
  · exact h.take_ends hled hm hn hstamp

omit [DecidableEq Id] in
/-- What was confirmed before is still kept: entries are replaced only where the leader's differ. -/
theorem LogInvariant.merged_kept (h : LogInvariant quorums s) (hled : s.Led (s.term v))
    (hm : m ≤ (s.leaderLog (s.term v)).length) (hmerged : s.Merged v m l) {t n : ℕ} (hn : n < s.acked t v)
    (hstamp : termAt (s.leaderLog t) n = some t) :
    (AgreeBelow (n + 1) l (s.leaderLog t) ∧ EndsAtLeast l t n) ∨ ∃ u ≤ s.term v, s.Lost t n u := by
  rcases h.held_or_lost hled hn with hheld | hlost
  · rcases h.kept t v n hn hstamp with ⟨hagree, hend⟩ | hlost
    · rcases hmerged with ⟨rfl, _⟩ | ⟨rfl, i, him, _, _, hdiff⟩
      · exact Or.inl ⟨hagree, hend⟩
      · have hin : n < i := by
          by_contra hle
          exact hdiff ((hagree i (by omega)).trans (hheld i (by omega)).symm)
        exact Or.inl (h.kept_take hled hm (by omega) hstamp hheld)
    · exact Or.inr hlost
  · exact Or.inr hlost

/-- Accepting entries of the current leader keeps the invariant. -/
theorem LogInvariant.accept (h : LogInvariant quorums s) (hled : s.Led (s.term v))
    (hm : m ≤ (s.leaderLog (s.term v)).length)
    (hprev : s.snap v < p → p ≤ (s.log v).length ∧
      termAt (s.log v) (p - 1) = termAt (s.leaderLog (s.term v)) (p - 1))
    (hk : k ≤ m) (hcommit : k ≤ s.leaderCommit (s.term v))
    (hmerge : Merges (s.snap v) p m (s.leaderLog (s.term v)) (s.log v) l) :
    LogInvariant quorums { s with
      standing := Function.update s.standing v .follower
      log := Function.update s.log v l
      commit := Function.update s.commit v (max (s.commit v) k)
      acked := setAt s.acked (s.term v) v
        (if s.snap v < m then max (s.acked (s.term v) v) m else s.acked (s.term v) v) } := by
  have hsnap := h.snap_le v
  have hmerged : s.Merged v m l := h.merged hled hprev hmerge
  obtain ⟨hlen, hcommon⟩ := h.merged_commit hled hm hmerged
  have hfollows : s.Follows (s.snap v) (s.term v) l := by
    rcases hmerged with ⟨rfl, _⟩ | ⟨rfl, _⟩
    · exact h.node_follows v
    · exact h.take_follows m _ hled
  have hacked := h.acked_le (s.term v) v
  have hinv : LogInvariant quorums (s.refitted v l (s.snap v) (max (s.commit v) k)
      (if s.snap v < m then max (s.acked (s.term v) v) m else s.acked (s.term v) v)) := by
    refine h.refit hled hfollows (by omega) (by omega) (h.settled_max hled hcommit (hcommon.mono (by omega)))
      (by split <;> omega) (by split <;> omega) fun t n hn hstamp => ?_
    by_cases hold : n < s.acked t v
    · exact h.merged_kept hled hm hmerged hold hstamp
    · obtain ⟨rfl, hnm, hsm⟩ : t = s.term v ∧ n < m ∧ s.snap v < m := by
        obtain ⟨rfl, hlt⟩ := hn.resolve_left hold
        split at hlt
        · exact ⟨rfl, by omega, ‹_›⟩
        · exact absurd hlt hold
      exact Or.inl ⟨hmerged.agree.mono hnm, h.merged_ends hled hm hmerged hsm hnm hstamp⟩
  rw [LogState.refitted, Function.update_eq_self] at hinv
  exact hinv

end Accept

section Install

variable {v : Id} {k : ℕ}

/-- The leader's log up to a position with one's own entries behind it. -/
def splice (k : ℕ) (lead l : List E) : List E := lead.take k ++ l.drop k

omit [Stamped E] in
/-- Up to the position it is the leader's. -/
theorem splice_low {lead : List E} (l : List E) (hk : k ≤ lead.length) : AgreeBelow k (splice k lead l) lead := by
  intro j hj
  rw [splice, List.getElem?_append_left (by rw [List.length_take]; omega), agreeBelow_take le_rfl j hj]

omit [Stamped E] in
/-- From there on it is one's own. -/
theorem splice_high {lead : List E} (l : List E) (hk : k ≤ lead.length) {j : ℕ} (hj : k ≤ j) :
    (splice k lead l)[j]? = l[j]? := by
  rw [splice, List.getElem?_append_right (by rw [List.length_take]; omega), List.length_take, Nat.min_eq_left hk,
    List.getElem?_drop, Nat.add_sub_cancel' hj]

omit [Stamped E] in
/-- It is as long as the longer one. -/
theorem length_splice {lead : List E} (l : List E) (hk : k ≤ lead.length) : (splice k lead l).length = max k l.length := by
  rw [splice, List.length_append, List.length_take, List.length_drop]
  omega

omit [DecidableEq Id] in
/-- What was confirmed before is still kept: below the snapshot by the leader's log, behind it by one's own. -/
theorem LogInvariant.splice_kept (h : LogInvariant quorums s) (hled : s.Led (s.term v))
    (hk : k ≤ (s.leaderLog (s.term v)).length) {t n : ℕ} (hn : n < s.acked t v)
    (hstamp : termAt (s.leaderLog t) n = some t) :
    (AgreeBelow (n + 1) (splice k (s.leaderLog (s.term v)) (s.log v)) (s.leaderLog t) ∧
      EndsAtLeast (splice k (s.leaderLog (s.term v)) (s.log v)) t n) ∨ ∃ u ≤ s.term v, s.Lost t n u := by
  rcases h.held_or_lost hled hn with hheld | hlost
  swap
  · exact Or.inr hlost
  rcases h.kept t v n hn hstamp with ⟨hagree, hend⟩ | hlost
  swap
  · exact Or.inr hlost
  have hnlen : n + 1 ≤ (s.log v).length := hagree.symm.le_length (lt_length_of_termAt hstamp)
  have hlength := length_splice (s.log v) hk
  left
  refine ⟨fun j hj => ?_, ?_⟩
  · rcases Nat.lt_or_ge j k with hjk | hkj
    · rw [splice_low _ hk j hjk, hheld j hj]
    · rw [splice_high _ hk hkj, hagree j hj]
  · rcases Nat.lt_or_ge k (s.log v).length with hkept | hgone
    · have hlast : lastTerm (splice k (s.leaderLog (s.term v)) (s.log v)) = lastTerm (s.log v) :=
        lastTerm_eq_of_last (by omega) (splice_high _ hk (by omega))
      rcases hend with hlater | ⟨heq, hin⟩
      · exact Or.inl (by rw [hlast]; exact hlater)
      · exact Or.inr ⟨by rw [hlast]; exact heq, by omega⟩
    · rw [splice, List.drop_eq_nil_of_le hgone, List.append_nil]
      exact (h.kept_take hled hk (by omega) hstamp hheld).2

/-- Installing a snapshot of the current leader, and keeping whatever lies behind it, keeps the
invariant. -/
theorem LogInvariant.install (h : LogInvariant quorums s) (hled : s.Led (s.term v)) (hsnap : s.snap v ≤ k)
    (hcommit : k ≤ s.leaderCommit (s.term v)) :
    LogInvariant quorums { s with
      standing := Function.update s.standing v .follower
      log := Function.update s.log v ((s.leaderLog (s.term v)).take k ++ (s.log v).drop k)
      snap := Function.update s.snap v k
      commit := Function.update s.commit v (max (s.commit v) k) } := by
  have hlen := h.commit_le v
  have hk : k ≤ (s.leaderLog (s.term v)).length := hcommit.trans (h.leader_commit_le _ hled)
  have hlength := length_splice (s.log v) hk
  have hcommon : AgreeBelow (max (s.commit v) k) (splice k (s.leaderLog (s.term v)) (s.log v))
      (s.leaderLog (s.term v)) := by
    intro j hj
    rcases Nat.lt_or_ge j k with hjk | hkj
    · exact splice_low _ hk j hjk
    · rw [splice_high _ hk hkj, h.commit_agrees hled j (by omega)]
  have hfollows : s.Follows k (s.term v) (splice k (s.leaderLog (s.term v)) (s.log v)) := by
    intro j t hj ht
    rw [termAt_congr (splice_high _ hk hj)] at ht
    obtain ⟨hle, hl, hsame⟩ := h.node_follows v j t (by omega) ht
    refine ⟨hle, hl, fun i hi hij => ?_⟩
    rw [splice_high _ hk hi, hsame i (by omega) hij]
  have hinv : LogInvariant quorums (s.refitted v (splice k (s.leaderLog (s.term v)) (s.log v)) k
      (max (s.commit v) k) (s.acked (s.term v) v)) := by
    refine h.refit hled hfollows (by omega) (by omega) (h.settled_max hled hcommit hcommon) le_rfl
      (h.acked_le (s.term v) v) fun t n hn hstamp => h.splice_kept hled hk ?_ hstamp
    rcases hn with hlt | ⟨rfl, hlt⟩ <;> exact hlt
  rw [LogState.refitted, setAt_eq_self] at hinv
  exact hinv

end Install

end ConsensusLab.Foundation
