import ConsensusLab.Foundation.ReplicatedLog.Safety

/-!
# Agreement with a leader, and the committed log

A participant that holds the first entries of the leader of its term keeps them until it
moves to a later term, since only that leader's entries can change its log. What leaders
and participants have committed are the first entries of one log, the committed part of
the leader that has come furthest.
-/

namespace ConsensusLab.Foundation

variable {Id E : Type*} [Stamped E] {quorums : QuorumSystem Id} {s s' : LogState Id E}

/-- Participant `v` has heard of term `t`, and as long as it stays in that term its first `k` positions
are those of the term's leader. -/
structure LogState.Concurs (s : LogState Id E) (v : Id) (t k : ℕ) : Prop where
  led : s.Led t
  reached : t ≤ s.term v
  within : k ≤ (s.leaderLog t).length
  agree : s.term v = t → AgreeBelow k (s.log v) (s.leaderLog t)

/-- A participant concurs as far as it has committed. -/
theorem LogInvariant.concurs_of_commit (h : LogInvariant quorums s) {v : Id} {k : ℕ}
    (hled : s.Led (s.term v)) (hk : k ≤ s.commit v) : s.Concurs v (s.term v) k where
  led := hled
  reached := le_rfl
  within := by
    have hagree := (h.commit_agrees hled).mono hk
    exact hagree.le_length (hk.trans (h.commit_le v))
  agree _ := (h.commit_agrees hled).mono hk

/-- A participant concurs up to a position behind its snapshot at which it has the leader's term. -/
theorem LogInvariant.concurs_of_term (h : LogInvariant quorums s) {v : Id} {j u : ℕ}
    (hled : s.Led (s.term v)) (hsnap : s.snap v ≤ j) (hown : termAt (s.log v) j = some u)
    (hlead : termAt (s.leaderLog (s.term v)) j = some u) : s.Concurs v (s.term v) (j + 1) where
  led := hled
  reached := le_rfl
  within := lt_length_of_termAt hlead
  agree _ := h.agrees_of_term hled hsnap hown hlead

variable [DecidableEq Id] {may : LogState Id E → Id → ℕ → Prop}

/-- No step takes entries of the leader of its term from a participant. -/
theorem LogStep.keeps_leader_entries (h : LogInvariant quorums s) (hstep : LogStep quorums may s s')
    {v : Id} {k : ℕ} (hk : k ≤ (s.leaderLog (s.term v)).length)
    (hagree : AgreeBelow k (s.log v) (s.leaderLog (s.term v))) :
    AgreeBelow k (s'.log v) (s.leaderLog (s.term v)) := by
  -- a step by another participant does not touch the log
  have hother : ∀ {w : Id} {l : List E}, v ≠ w →
      AgreeBelow k (Function.update s.log w l v) (s.leaderLog (s.term v)) := by
    intro w l hne
    rw [Function.update_of_ne hne]
    exact hagree
  cases hstep with
  | poll | observe | grant | win | retreat | advance | compact => exact hagree
  | append c e hstanding hstamp =>
    by_cases hv : v = c
    · subst hv
      change AgreeBelow k (Function.update s.log v (s.log v ++ [e]) v) _
      rw [Function.update_self]
      exact (agreeBelow_append [e] (hagree.symm.le_length hk)).trans hagree
    · exact hother hv
  | accept w p m j l hledw hotherw hm hprev hj hcommit hmerge =>
    by_cases hv : v = w
    · subst hv
      change AgreeBelow k (Function.update s.log v l v) _
      rw [Function.update_self]
      rcases h.merged hledw hprev hmerge with ⟨rfl, _⟩ | ⟨rfl, i, him, _, _, hdiffer⟩
      · exact hagree
      · have hki : k ≤ i := by
          by_contra hlt
          exact hdiffer (hagree i (by omega))
        exact agreeBelow_take (by omega)
    · exact hother hv
  | install w i hledw hotherw hsnap hcommit hmay =>
    by_cases hv : v = w
    · subst hv
      change AgreeBelow k (Function.update s.log v _ v) _
      rw [Function.update_self]
      intro j hj
      have hlen : ((s.leaderLog (s.term v)).take i).length = i :=
        List.length_take_of_le (hcommit.trans (h.leader_commit_le _ hledw))
      by_cases hji : j < i
      · rw [List.getElem?_append_left (by omega)]
        exact agreeBelow_take le_rfl j hji
      · rw [List.getElem?_append_right (by omega), hlen, List.getElem?_drop, Nat.add_sub_cancel' (by omega)]
        exact hagree j hj
    · exact hother hv

/-- Participants go on concurring. -/
theorem LogState.Concurs.step {v : Id} {t k : ℕ} (hc : s.Concurs v t k) (h : LogInvariant quorums s)
    (hstep : LogStep quorums may s s') : s'.Concurs v t k := by
  have hgrows := hstep.grows h
  have hlog := hgrows.leaderLog t hc.led
  refine ⟨hgrows.toExtends.led t hc.led, hc.reached.trans (hgrows.term v), hc.within.trans hlog.length_le,
    fun hterm => ?_⟩
  have hsame : s.term v = t := le_antisymm (hterm ▸ hgrows.term v) hc.reached
  subst hsame
  have hkept := hstep.keeps_leader_entries h hc.within (hc.agree rfl)
  obtain ⟨more, hmore⟩ := hlog
  rw [← hmore]
  exact hkept.trans (agreeBelow_append more hc.within).symm

/-- Participants go on concurring along a run. -/
theorem LogState.Concurs.path {v : Id} {t k : ℕ} (hc : s.Concurs v t k)
    (run : Reachable LogState.First (LogStep quorums may) s)
    (path : Relation.ReflTransGen (LogStep quorums may) s s') : s'.Concurs v t k := by
  induction path with
  | refl => exact hc
  | tail hpath hstep ih => exact ih.step (logInvariant_of_reachable (run.trans hpath)) hstep

/-- A log of which all that anybody has committed is an initial part. -/
structure LogState.CommittedLog (s : LogState Id E) (l : List E) : Prop where
  leaders : ∀ t, s.Led t → s.leaderCommit t ≤ l.length ∧ AgreeBelow (s.leaderCommit t) (s.leaderLog t) l
  participants : ∀ v, s.commit v ≤ l.length ∧ AgreeBelow (s.commit v) (s.log v) l

/-- No leader has committed more than the leader of term `t`; without leaders nothing is committed. -/
def LogState.Furthest (s : LogState Id E) (t : ℕ) : Prop :=
  ∀ u, s.Led u → s.Led t ∧ s.leaderCommit u ≤ s.leaderCommit t

omit [DecidableEq Id] in
/-- What participants have committed, some leader has. -/
theorem LogInvariant.commit_le_leader (h : LogInvariant quorums s) (v : Id) :
    s.commit v = 0 ∨ ∃ t, s.Led t ∧ s.commit v ≤ s.leaderCommit t ∧
      AgreeBelow (s.commit v) (s.log v) (s.leaderLog t) := by
  rcases h.settled v with hzero | ⟨t, n, _, hchosen, hn, hagree⟩
  · exact Or.inl hzero
  · obtain ⟨hled, _, hcommit, _⟩ := h.chosen_ok t n hchosen
    exact Or.inr ⟨t, hled, by omega, hagree⟩

/-- Some leader has always come furthest: a new one starts with no more than is committed already. -/
theorem exists_furthest (run : Reachable LogState.First (LogStep quorums may) s) : ∃ t, s.Furthest t := by
  refine run.invariant (P := fun s => ∃ t, s.Furthest t) (fun s h => ?_) (fun s s' run ⟨t, ht⟩ hstep => ?_)
  · exact ⟨0, fun u hu => absurd (h.1.2.2 u) hu⟩
  have h := logInvariant_of_reachable run
  cases hstep with
  | poll | observe | grant | retreat | append | accept | compact | install => exact ⟨t, ht⟩
  | win c Q hstanding hQ hvotes =>
    have hvacant := h.election.vacant hstanding hQ hvotes
    by_cases hnone : ∃ u, s.Led u
    · obtain ⟨u, hu⟩ := hnone
      have hled := (ht u hu).1
      have hne : t ≠ s.term c := fun heq => hled (heq ▸ hvacant)
      refine ⟨t, fun w hw => ?_⟩
      change Function.update s.leader (s.term c) (some c) w ≠ none at hw
      change Function.update s.leader (s.term c) (some c) t ≠ none ∧
        Function.update s.leaderCommit (s.term c) (s.commit c) w ≤
          Function.update s.leaderCommit (s.term c) (s.commit c) t
      rw [Function.update_of_ne hne, Function.update_of_ne hne]
      refine ⟨hled, ?_⟩
      by_cases hw' : w = s.term c
      · rw [hw', Function.update_self]
        rcases h.commit_le_leader c with hzero | ⟨r, hr, hle, _⟩
        · omega
        · exact hle.trans (ht r hr).2
      · rw [Function.update_of_ne hw'] at hw ⊢
        exact (ht w hw).2
    · refine ⟨s.term c, fun w hw => ?_⟩
      change Function.update s.leader (s.term c) (some c) w ≠ none at hw
      have hw' : w = s.term c := by
        by_contra hne
        rw [Function.update_of_ne hne] at hw
        exact hnone ⟨w, hw⟩
      subst hw'
      exact ⟨hw, le_rfl⟩
  | advance c n Q hstanding hnew hstamp hQ hacked =>
    have hled := h.led_of_office hstanding
    have hcommit := h.office_commit c hstanding
    by_cases hbest : s.leaderCommit t ≤ n + 1
    · refine ⟨s.term c, fun u hu => ⟨hled, ?_⟩⟩
      change Function.update s.leaderCommit (s.term c) (n + 1) u ≤
        Function.update s.leaderCommit (s.term c) (n + 1) (s.term c)
      rw [Function.update_self]
      by_cases hu' : u = s.term c
      · rw [hu', Function.update_self]
      · rw [Function.update_of_ne hu']
        exact (ht u hu).2.trans hbest
    · have hne : t ≠ s.term c := by
        rintro rfl
        omega
      refine ⟨t, fun u hu => ⟨(ht u hu).1, ?_⟩⟩
      change Function.update s.leaderCommit (s.term c) (n + 1) u ≤
        Function.update s.leaderCommit (s.term c) (n + 1) t
      rw [Function.update_of_ne hne]
      by_cases hu' : u = s.term c
      · rw [hu', Function.update_self]
        omega
      · rw [Function.update_of_ne hu']
        exact (ht u hu).2

/-- **The committed log.** All that leaders and participants have committed is an initial part of one
log. -/
theorem exists_committedLog (run : Reachable LogState.First (LogStep quorums may) s) :
    ∃ l, s.CommittedLog l := by
  have h := logInvariant_of_reachable run
  obtain ⟨t, ht⟩ := exists_furthest run
  have hleaders : ∀ u, s.Led u → s.leaderCommit u ≤ ((s.leaderLog t).take (s.leaderCommit t)).length ∧
      AgreeBelow (s.leaderCommit u) (s.leaderLog u) ((s.leaderLog t).take (s.leaderCommit t)) := by
    intro u hu
    obtain ⟨hled, hle⟩ := ht u hu
    rw [List.length_take_of_le (h.leader_commit_le t hled)]
    exact ⟨hle, (h.leaders_agree hu hled le_rfl hle).trans (agreeBelow_take hle).symm⟩
  refine ⟨(s.leaderLog t).take (s.leaderCommit t), hleaders, fun v => ?_⟩
  rcases h.commit_le_leader v with hzero | ⟨u, hu, hle, hagree⟩
  · rw [hzero]
    exact ⟨Nat.zero_le _, fun j hj => absurd hj (Nat.not_lt_zero j)⟩
  · obtain ⟨hlen, hsame⟩ := hleaders u hu
    exact ⟨hle.trans hlen, hagree.trans (hsame.mono hle)⟩

end ConsensusLab.Foundation
