import ConsensusLab.Foundation.ReplicatedLog.Records

/-!
# Steps that leave the logs alone

Polls, term changes, ballots, step-downs and compactions touch no log entry. What they
must account for is the information a ballot carries: a voter compares its own log
with the candidate's, so whatever it has confirmed and still holds is reached by the
log it votes for.
-/

namespace ConsensusLab.Foundation

variable {Id E : Type*} {quorums : QuorumSystem Id} {s s' : LogState Id E}

/-- Settledness survives later bounds and smaller positions. -/
theorem LogState.Settled.mono {bound bound' k k' : ℕ} {l : List E} (h : s.Settled bound k l)
    (hbound : bound ≤ bound') (hk : k' ≤ k) : s.Settled bound' k' l := by
  rcases h with rfl | ⟨t, n, ht, hchosen, hkn, hagree⟩
  · exact Or.inl (by omega)
  · exact Or.inr ⟨t, n, by omega, hchosen, by omega, hagree.mono hk⟩

variable [Stamped E]

/-- A later snapshot and a later term ask less of a log. -/
theorem LogState.Follows.mono {base base' bound bound' : ℕ} {l : List E} (h : s.Follows base bound l)
    (hbase : base ≤ base') (hbound : bound ≤ bound') : s.Follows base' bound' l := by
  intro j t hj ht
  obtain ⟨hle, hled, hsame⟩ := h j t (by omega) ht
  exact ⟨by omega, hled, fun i hi hij => hsame i (by omega) hij⟩

/-- A step that changes neither logs nor leaders, lowers no term and moves commit positions only
down to the snapshot keeps everything except what concerns the election itself. -/
theorem LogInvariant.calm (h : LogInvariant quorums s) (hlog : s'.log = s.log)
    (hsnap : ∀ v, s.snap v ≤ s'.snap v ∧ s'.snap v ≤ s'.commit v) (hleader : s'.leader = s.leader)
    (hleaderLog : s'.leaderLog = s.leaderLog) (hleaderCommit : s'.leaderCommit = s.leaderCommit)
    (hacked : s'.acked = s.acked) (hchosen : s'.chosen = s.chosen)
    (hterm : ∀ v, s.term v ≤ s'.term v) (hcommit : ∀ v, s'.commit v ≤ s.commit v)
    (helection : ElectionInvariant quorums s'.toElectionState)
    (hpolled : ∀ t c, s'.polled t c ≠ none → t ≤ s'.term c)
    (hcandidate : ∀ v, s'.standing v = .candidate → s'.polled (s'.term v) v = some (s'.log v))
    (hoffice : ∀ v, s'.standing v = .leader →
      s.standing v = .leader ∧ s'.term v = s.term v ∧ s'.commit v = s.commit v)
    (hbacked : ∀ u v c, s'.ballot u v = some c → ∃ l, s'.polled u c = some l ∧ s.Backed v u l) :
    LogInvariant quorums s' := by
  have hled : ∀ t, s'.Led t ↔ s.Led t := fun t => by rw [LogState.Led, LogState.Led, hleader]
  have ha : s.Amends s' := .of_eq hleader hleaderLog (fun t n hc => by rwa [hchosen]) hterm
    (fun t v => by rw [hacked]) fun t v _ => by rw [hacked]
  exact {
    election := helection
    polled_le := hpolled
    candidate_log := hcandidate
    office_log := fun v hv => by
      obtain ⟨hold, ht, _⟩ := hoffice v hv
      rw [hlog, ht, hleaderLog, h.office_log v hold]
    office_commit := fun v hv => by
      obtain ⟨hold, ht, hc⟩ := hoffice v hv
      rw [hc, ht, hleaderCommit, h.office_commit v hold]
    leader_follows := fun t ht => by
      rw [hleaderLog]
      exact (h.leader_follows t ((hled t).mp ht)).extend ha.toExtends
    node_follows := fun v => by
      rw [hlog]
      exact ((h.node_follows v).mono (hsnap v).1 (hterm v)).extend ha.toExtends
    snap_le := fun v => (hsnap v).2
    commit_le := fun v => by
      rw [hlog]
      exact (hcommit v).trans (h.commit_le v)
    settled := fun v => by
      rw [hlog]
      exact h.settled_extend ha.toExtends ((h.settled v).mono (hterm v) (hcommit v))
    leader_commit_le := fun t ht => by
      rw [hleaderCommit, hleaderLog]
      exact h.leader_commit_le t ((hled t).mp ht)
    leader_settled := fun t ht => by
      rw [hleaderCommit, hleaderLog]
      exact h.settled_extend ha.toExtends (h.leader_settled t ((hled t).mp ht))
    chosen_ok := fun t n hc => h.chosen_amend ha (by rwa [hchosen] at hc) (by rw [hleaderCommit])
    acked_ok := fun t v hv => by
      rw [hacked] at hv ⊢
      exact h.acked_ok_amend ha hv
    kept := fun t v n hn hstamp => h.kept_amend ha (by rw [hlog]) (by rwa [hacked] at hn) hstamp
    backed := fun u v c hb => by
      obtain ⟨l, hl, hback⟩ := hbacked u v c hb
      exact ⟨l, hl, h.backed_amend ha hback fun t _ => by rw [hacked]⟩
    covers := fun u t n hu htu hstamp ht =>
      h.covers_amend ha ((hled u).mp hu) ((hled t).mp ht) htu hstamp }

/-- What a participant keeps is reached by its own log, so its ballot for a log at least as up to
date as its own is backed, whatever happened in its term so far. -/
theorem LogInvariant.backed_of_upToDate (h : LogInvariant quorums s) {v : Id} {u : ℕ} {l : List E}
    (hu : s.term v ≤ u) (hup : UpToDate l (s.log v)) : s.Backed v u l := by
  intro t n htu hn hstamp
  rcases h.kept t v n hn hstamp with ⟨_, hend⟩ | ⟨w, hw, hlost⟩
  · exact Or.inl (hend.of_upToDate hup)
  · rcases Nat.lt_or_ge w u with hlt | hge
    · exact Or.inr (Or.inl ⟨w, hlt, hlost⟩)
    · obtain rfl : w = u := by omega
      exact Or.inr (Or.inr hlost.2.1)

/-- Every log is as up to date as itself. -/
theorem UpToDate.refl (l : List E) : UpToDate l l := Or.inr ⟨rfl, Nat.le_refl _⟩

variable [DecidableEq Id]

/-- Opening a poll keeps the invariant. -/
theorem LogInvariant.poll (h : LogInvariant quorums s) {c : Id} {t : ℕ} {next : Standing}
    (hterm : s.term c < t) (hnext : next ≠ .leader) :
    LogInvariant quorums { s with
      term := Function.update s.term c t
      standing := Function.update s.standing c next
      ballot := setAt s.ballot t c (some c)
      polled := setAt s.polled t c (some (s.log c)) } := by
  have hnew : s.polled t c = none := by
    by_contra hp
    exact absurd (h.polled_le t c hp) (by omega)
  refine h.calm rfl (fun v => ⟨le_rfl, h.snap_le v⟩) rfl rfl rfl rfl rfl
    (fun v => le_update_term hterm le_rfl) (fun v => le_rfl)
    (h.election.step (.poll _ c t next hterm hnext)) (fun u w hp => ?_) (fun v hv => ?_)
    (fun v hv => ?_) (fun u v d hb => ?_)
  · change u ≤ Function.update s.term c t w
    by_cases hcast : u = t ∧ w = c
    · rw [hcast.1, hcast.2, Function.update_self]
    · change setAt s.polled t c (some (s.log c)) u w ≠ none at hp
      rw [setAt_of_ne _ _ hcast] at hp
      exact le_update_term hterm (h.polled_le u w hp)
  · change Function.update s.standing c next v = .candidate at hv
    change setAt s.polled t c (some (s.log c)) (Function.update s.term c t v) v = some (s.log v)
    by_cases hvc : v = c
    · subst v
      rw [Function.update_self, setAt_self]
    · rw [Function.update_of_ne hvc] at hv ⊢
      rw [setAt_of_ne _ _ (fun hcast => hvc hcast.2)]
      exact h.candidate_log v hv
  · change Function.update s.standing c next v = .leader at hv
    by_cases hvc : v = c
    · subst v
      rw [Function.update_self] at hv
      exact absurd hv hnext
    · rw [Function.update_of_ne hvc] at hv
      exact ⟨hv, Function.update_of_ne hvc _ _, rfl⟩
  · change setAt s.ballot t c (some c) u v = some d at hb
    by_cases hcast : u = t ∧ v = c
    · obtain ⟨rfl, rfl⟩ := hcast
      rw [setAt_self] at hb
      cases hb
      exact ⟨s.log v, setAt_self _ _ _ _, h.backed_of_upToDate hterm.le (UpToDate.refl _)⟩
    · rw [setAt_of_ne _ _ hcast] at hb
      obtain ⟨l, hl, hback⟩ := h.backed u v d hb
      refine ⟨l, ?_, hback⟩
      change setAt s.polled t c (some (s.log c)) u d = some l
      by_cases hpoll : u = t ∧ d = c
      · rw [hpoll.1, hpoll.2, hnew] at hl
        cases hl
      · rw [setAt_of_ne _ _ hpoll, hl]

/-- Learning of a later term keeps the invariant. -/
theorem LogInvariant.observe (h : LogInvariant quorums s) {v : Id} {t : ℕ} (hterm : s.term v < t) :
    LogInvariant quorums { s with
      term := Function.update s.term v t
      standing := Function.update s.standing v .follower } := by
  have hstill : ∀ w, Function.update s.standing v .follower w ≠ .follower → w ≠ v := by
    rintro w hw rfl
    exact hw (Function.update_self ..)
  refine h.calm rfl (fun w => ⟨le_rfl, h.snap_le w⟩) rfl rfl rfl rfl rfl
    (fun w => le_update_term hterm le_rfl) (fun w => le_rfl) (h.election.step (.observe _ v t hterm))
    (fun u w hp => le_update_term hterm (h.polled_le u w hp)) (fun w hw => ?_) (fun w hw => ?_)
    (fun u w d hb => h.backed u w d hb)
  · change Function.update s.standing v .follower w = .candidate at hw
    change s.polled (Function.update s.term v t w) w = some (s.log w)
    have hwv := hstill w (by rw [hw]; decide)
    rw [Function.update_of_ne hwv] at hw ⊢
    exact h.candidate_log w hw
  · change Function.update s.standing v .follower w = .leader at hw
    have hwv := hstill w (by rw [hw]; decide)
    rw [Function.update_of_ne hwv] at hw
    exact ⟨hw, Function.update_of_ne hwv _ _, rfl⟩

/-- Casting a ballot for a log that is at least as up to date keeps the invariant. -/
theorem LogInvariant.grant (h : LogInvariant quorums s) {v c : Id} {l : List E}
    (hopen : s.ballot (s.term v) v = none ∨ s.ballot (s.term v) v = some c)
    (hpolled : s.polled (s.term v) c = some l) (hfresh : UpToDate l (s.log v)) :
    LogInvariant quorums { s with ballot := setAt s.ballot (s.term v) v (some c) } := by
  refine h.calm rfl (fun w => ⟨le_rfl, h.snap_le w⟩) rfl rfl rfl rfl rfl (fun w => le_rfl)
    (fun w => le_rfl) (h.election.step (.grant _ v c hopen)) h.polled_le h.candidate_log
    (fun w hw => ⟨hw, rfl, rfl⟩) (fun u w d hb => ?_)
  change setAt s.ballot (s.term v) v (some c) u w = some d at hb
  by_cases hcast : u = s.term v ∧ w = v
  · rw [hcast.1, hcast.2, setAt_self] at hb
    cases hb
    rw [hcast.1, hcast.2]
    exact ⟨l, hpolled, h.backed_of_upToDate le_rfl hfresh⟩
  · rw [setAt_of_ne _ _ hcast] at hb
    exact h.backed u w d hb

/-- Stepping down, and forgetting part of the commit position on a restart, keep the invariant. -/
theorem LogInvariant.retreat (h : LogInvariant quorums s) {v : Id} {k : ℕ} (hsnap : s.snap v ≤ k)
    (hcommit : k ≤ s.commit v) :
    LogInvariant quorums { s with
      standing := Function.update s.standing v .follower
      commit := Function.update s.commit v k } := by
  have hstill : ∀ w, Function.update s.standing v .follower w ≠ .follower → w ≠ v := by
    rintro w hw rfl
    exact hw (Function.update_self ..)
  refine h.calm rfl (fun w => ⟨le_rfl, ?_⟩) rfl rfl rfl rfl rfl (fun w => le_rfl) (fun w => ?_)
    (h.election.step (.demote _ v)) h.polled_le (fun w hw => ?_) (fun w hw => ?_)
    (fun u w d hb => h.backed u w d hb)
  · change s.snap w ≤ Function.update s.commit v k w
    by_cases hwv : w = v
    · subst w
      rwa [Function.update_self]
    · rw [Function.update_of_ne hwv]
      exact h.snap_le w
  · change Function.update s.commit v k w ≤ s.commit w
    by_cases hwv : w = v
    · subst w
      rwa [Function.update_self]
    · rw [Function.update_of_ne hwv]
  · change Function.update s.standing v .follower w = .candidate at hw
    have hwv := hstill w (by rw [hw]; decide)
    rw [Function.update_of_ne hwv] at hw
    exact h.candidate_log w hw
  · change Function.update s.standing v .follower w = .leader at hw
    have hwv := hstill w (by rw [hw]; decide)
    rw [Function.update_of_ne hwv] at hw
    exact ⟨hw, rfl, Function.update_of_ne hwv _ _⟩

/-- Compacting committed positions keeps the invariant. -/
theorem LogInvariant.compact (h : LogInvariant quorums s) {v : Id} {k : ℕ} (hsnap : s.snap v ≤ k)
    (hcommit : k ≤ s.commit v) :
    LogInvariant quorums { s with snap := Function.update s.snap v k } := by
  refine h.calm rfl (fun w => ?_) rfl rfl rfl rfl rfl (fun w => le_rfl) (fun w => le_rfl) h.election
    h.polled_le h.candidate_log (fun w hw => ⟨hw, rfl, rfl⟩) (fun u w d hb => h.backed u w d hb)
  change s.snap w ≤ Function.update s.snap v k w ∧ Function.update s.snap v k w ≤ s.commit w
  by_cases hwv : w = v
  · subst w
    rw [Function.update_self]
    exact ⟨hsnap, hcommit⟩
  · rw [Function.update_of_ne hwv]
    exact ⟨le_rfl, h.snap_le w⟩

end ConsensusLab.Foundation
