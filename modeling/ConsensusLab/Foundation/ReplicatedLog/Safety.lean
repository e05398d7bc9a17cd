import ConsensusLab.Foundation.ReplicatedLog.Victory
import ConsensusLab.Foundation.ReplicatedLog.Office
import ConsensusLab.Foundation.ReplicatedLog.Replication

/-!
# Safety of the replicated log

Every step keeps the invariant, so every reachable state has it, and the records only
grow along a run. Log matching is the one classical property that needs more: it holds
in runs whose installed snapshots agree with the log they are installed over.
-/

namespace ConsensusLab.Foundation

variable {Id E : Type*} [Stamped E] {s s' : LogState Id E}

/-- What a run never takes back. Leaders' logs grow by entries of their own term. -/
structure LogState.Grows (s s' : LogState Id E) : Prop where
  term : ∀ v, s.term v ≤ s'.term v
  ballot : ∀ t v c, s.ballot t v = some c → s'.ballot t v = some c
  leader : ∀ t c, s.leader t = some c → s'.leader t = some c
  polled : ∀ t c l, s.polled t c = some l → s'.polled t c = some l
  leaderLog : ∀ t, s.Led t → s.leaderLog t <+: s'.leaderLog t
  stamp : ∀ t, s.Led t → ∀ j u, (s.leaderLog t).length ≤ j → termAt (s'.leaderLog t) j = some u → u = t
  leaderCommit : ∀ t, s.Led t → s.leaderCommit t ≤ s'.leaderCommit t
  acked : ∀ t v, s.acked t v ≤ s'.acked t v
  chosen : ∀ t n, s.chosen t n → s'.chosen t n

/-- Nothing is taken back when nothing happens. -/
theorem LogState.Grows.refl (s : LogState Id E) : s.Grows s where
  term _ := le_rfl
  ballot _ _ _ hb := hb
  leader _ _ hl := hl
  polled _ _ _ hp := hp
  leaderLog _ _ := List.prefix_rfl
  stamp _ _ j u hj hu := absurd (lt_length_of_termAt hu) (by omega)
  leaderCommit _ _ := le_rfl
  acked _ _ := le_rfl
  chosen _ _ hc := hc

/-- Growth extends the records. -/
theorem LogState.Grows.toExtends (h : s.Grows s') : s.Extends s' where
  led t ht := by
    obtain ⟨c, hc⟩ := Option.ne_none_iff_exists'.mp ht
    rw [LogState.Led, h.leader t c hc]
    exact Option.some_ne_none c
  logs := h.leaderLog
  chosen := h.chosen

/-- Growth adds up. -/
theorem LogState.Grows.trans {s₁ s₂ s₃ : LogState Id E} (h : s₁.Grows s₂) (h' : s₂.Grows s₃) :
    s₁.Grows s₃ where
  term v := (h.term v).trans (h'.term v)
  ballot t v c hb := h'.ballot t v c (h.ballot t v c hb)
  leader t c hl := h'.leader t c (h.leader t c hl)
  polled t c l hp := h'.polled t c l (h.polled t c l hp)
  leaderLog t ht := (h.leaderLog t ht).trans (h'.leaderLog t (h.toExtends.led t ht))
  stamp t ht j u hj hu := by
    by_cases hold : j < (s₂.leaderLog t).length
    · obtain ⟨more, hmore⟩ := h'.leaderLog t (h.toExtends.led t ht)
      refine h.stamp t ht j u hj ?_
      rw [← hu, ← hmore]
      exact termAt_congr (List.getElem?_append_left hold).symm
    · exact h'.stamp t (h.toExtends.led t ht) j u (by omega) hu
  leaderCommit t ht := (h.leaderCommit t ht).trans (h'.leaderCommit t (h.toExtends.led t ht))
  acked t v := (h.acked t v).trans (h'.acked t v)
  chosen t n hc := h'.chosen t n (h.chosen t n hc)

/-- A step that changes none of the records but may raise terms and confirmations. -/
theorem LogState.grows_of_records (hterm : ∀ v, s.term v ≤ s'.term v)
    (hballot : ∀ t v c, s.ballot t v = some c → s'.ballot t v = some c)
    (hpolled : ∀ t c l, s.polled t c = some l → s'.polled t c = some l) (hleader : s'.leader = s.leader)
    (hleaderLog : s'.leaderLog = s.leaderLog) (hleaderCommit : s'.leaderCommit = s.leaderCommit)
    (hacked : ∀ t v, s.acked t v ≤ s'.acked t v) (hchosen : s'.chosen = s.chosen) : s.Grows s' where
  term := hterm
  ballot := hballot
  leader t c hl := by rw [hleader, hl]
  polled := hpolled
  leaderLog t _ := by rw [hleaderLog]
  stamp t _ j u hj hu := by
    rw [hleaderLog] at hu
    exact absurd (lt_length_of_termAt hu) (by omega)
  leaderCommit t _ := by rw [hleaderCommit]
  acked := hacked
  chosen t n hc := by rw [hchosen]; exact hc

variable [DecidableEq Id] {quorums : QuorumSystem Id}
  {may : LogState Id E → Id → ℕ → Prop}

/-- Every step keeps the invariant. -/
theorem LogInvariant.step (h : LogInvariant quorums s) (hstep : LogStep quorums may s s') :
    LogInvariant quorums s' := by
  cases hstep with
  | poll c t next hterm hnext => exact h.poll hterm hnext
  | observe v t hterm => exact h.observe hterm
  | grant v c l hopen hpolled hfresh => exact h.grant hopen hpolled hfresh
  | win c Q hstanding hQ hvotes => exact h.win hstanding hQ hvotes
  | retreat v k hsnap hcommit => exact h.retreat hsnap hcommit
  | append c e hstanding hstamp => exact h.append hstanding hstamp
  | accept v p m k l hled hother hm hprev hk hcommit hmerge =>
    exact h.accept hled hm hprev hk hcommit hmerge
  | advance c n Q hstanding hnew hstamp hQ hacked => exact h.advance hstanding hnew hstamp hQ hacked
  | compact v k hsnap hcommit => exact h.compact hsnap hcommit
  | install v k hled hother hsnap hcommit hmay => exact h.install hled hsnap hcommit

/-- Every reachable state satisfies the invariant. -/
theorem logInvariant_of_reachable (run : Reachable LogState.First (LogStep quorums may) s) :
    LogInvariant quorums s :=
  run.invariant (fun _ h => h.invariant) (fun _ _ _ h hstep => h.step hstep)

omit [DecidableEq Id] in
/-- What a participant has committed is committed by the leader of its term, or of an earlier term. -/
theorem LogInvariant.committed_matches (h : LogInvariant quorums s) {v : Id} (hled : s.Led (s.term v))
    {k : ℕ} (hk : k < s.commit v) : k < s.leaderCommit (s.term v) ∨
      ∃ u < s.term v, termAt (s.leaderLog (s.term v)) k = some u := by
  rcases h.settled v with hzero | ⟨t, j, ht, hchosen, hj, _⟩
  · omega
  obtain ⟨hledt, _, hcommit, _⟩ := h.chosen_ok t j hchosen
  rcases Nat.eq_or_lt_of_le ht with rfl | hlt
  · exact Or.inl (by omega)
  · have hlen := h.chosen_lt hchosen
    obtain ⟨u, hu⟩ := exists_termAt (show k < (s.leaderLog t).length by omega)
    have hle := (h.leader_follows t hledt k u (Nat.zero_le _) hu).1
    have hsame := h.completeness hchosen (s.term v) hled ht k (by omega)
    exact Or.inr ⟨u, by omega, by rw [termAt_congr hsame, hu]⟩

omit [Stamped E] in
/-- Raising one entry of a table of numbers. -/
theorem le_setAt {table : ℕ → Id → ℕ} {t : ℕ} {v : Id} {k : ℕ} (hk : table t v ≤ k) (u : ℕ) (w : Id) :
    table u w ≤ setAt table t v k u w := by
  by_cases huw : u = t ∧ w = v
  · rw [huw.1, huw.2, setAt_self]
    exact hk
  · rw [setAt_of_ne _ _ huw]

/-- No step takes anything back. -/
theorem LogStep.grows (h : LogInvariant quorums s) (hstep : LogStep quorums may s s') : s.Grows s' := by
  -- the elections take nothing back
  have helection : ElectionStep quorums s.toElectionState s'.toElectionState ∨
      s'.toElectionState = s.toElectionState := hstep.toElectionStep
  have hballot : ∀ t v c, s.ballot t v = some c → s'.ballot t v = some c := by
    rcases helection with helects | hidle
    · exact fun t v c => helects.ballot_mono h.election
    · exact fun t v c hb => hidle ▸ hb
  have hleader : ∀ t c, s.leader t = some c → s'.leader t = some c := by
    rcases helection with helects | hidle
    · exact fun t c => helects.leader_mono h.election
    · exact fun t c hl => hidle ▸ hl
  have hsame : ∀ t c l, s.polled t c = some l → s.polled t c = some l := fun _ _ _ hp => hp
  cases hstep with
  | poll c t next hterm hnext =>
    refine LogState.grows_of_records (fun v => le_update_term hterm le_rfl) hballot (fun u d l hp => ?_) rfl rfl rfl
      (fun _ _ => le_rfl) rfl
    change setAt s.polled t c (some (s.log c)) u d = some l
    have hne : ¬(u = t ∧ d = c) := by
      rintro ⟨rfl, rfl⟩
      exact absurd (h.polled_le u d (by rw [hp]; exact Option.some_ne_none l)) (by omega)
    rw [setAt_of_ne _ _ hne, hp]
  | observe v t hterm =>
    exact LogState.grows_of_records (fun w => le_update_term hterm le_rfl) hballot hsame rfl rfl rfl
      (fun _ _ => le_rfl) rfl
  | grant v c l hopen hpolled hfresh =>
    exact LogState.grows_of_records (fun _ => le_rfl) hballot hsame rfl rfl rfl (fun _ _ => le_rfl) rfl
  | win c Q hstanding hQ hvotes =>
    have hvacant := h.election.vacant hstanding hQ hvotes
    have hne : ∀ t, s.Led t → t ≠ s.term c := fun t ht heq => ht (heq ▸ hvacant)
    refine ⟨fun _ => le_rfl, hballot, hleader, hsame, fun t ht => ?_, fun t ht j u hj hu => ?_,
      fun t ht => ?_, ?_, fun _ _ hc => hc⟩
    · change s.leaderLog t <+: Function.update s.leaderLog (s.term c) (s.log c) t
      rw [Function.update_of_ne (hne t ht)]
    · change termAt (Function.update s.leaderLog (s.term c) (s.log c) t) j = some u at hu
      rw [Function.update_of_ne (hne t ht)] at hu
      exact absurd (lt_length_of_termAt hu) (by omega)
    · change s.leaderCommit t ≤ Function.update s.leaderCommit (s.term c) (s.commit c) t
      rw [Function.update_of_ne (hne t ht)]
    · refine le_setAt ?_
      rcases Nat.eq_zero_or_pos (s.acked (s.term c) c) with hzero | hpos
      · omega
      · exact absurd hvacant (h.acked_ok _ c hpos).2.1
  | retreat | compact =>
    exact LogState.grows_of_records (fun _ => le_rfl) hballot hsame rfl rfl rfl (fun _ _ => le_rfl) rfl
  | append c e hstanding hstamp =>
    refine ⟨fun _ => le_rfl, hballot, hleader, hsame, fun t _ => ?_, fun t _ j u hj hu => ?_,
      fun _ _ => le_rfl, ?_, fun _ _ hc => hc⟩
    · change s.leaderLog t <+: Function.update s.leaderLog (s.term c) (s.log c ++ [e]) t
      by_cases ht : t = s.term c
      · rw [ht, Function.update_self, h.office_log c hstanding]
        exact List.prefix_append _ _
      · rw [Function.update_of_ne ht]
    · change termAt (Function.update s.leaderLog (s.term c) (s.log c ++ [e]) t) j = some u at hu
      by_cases ht : t = s.term c
      · rw [ht, Function.update_self] at hu
        rw [ht, ← h.office_log c hstanding] at hj
        rw [termAt_concat hj hu, hstamp, ht]
      · rw [Function.update_of_ne ht] at hu
        exact absurd (lt_length_of_termAt hu) (by omega)
    · refine le_setAt ?_
      rcases Nat.eq_zero_or_pos (s.acked (s.term c) c) with hzero | hpos
      · omega
      · have := (h.acked_ok _ c hpos).2.2
        rw [← h.office_log c hstanding] at this
        omega
  | accept v p m k l hled hother hm hprev hk hcommit hmerge =>
    refine LogState.grows_of_records (fun _ => le_rfl) hballot hsame rfl rfl rfl (le_setAt ?_) rfl
    split <;> omega
  | advance c n Q hstanding hnew hstamp hQ hacked =>
    refine ⟨fun _ => le_rfl, hballot, hleader, hsame, fun _ _ => List.prefix_rfl,
      fun t _ j u hj hu => absurd (lt_length_of_termAt hu) (Nat.not_lt.mpr hj), fun t ht => ?_, fun _ _ => le_rfl,
      fun _ _ hc => Or.inr hc⟩
    change s.leaderCommit t ≤ Function.update s.leaderCommit (s.term c) (n + 1) t
    by_cases htc : t = s.term c
    · rw [htc, Function.update_self, ← h.office_commit c hstanding]
      omega
    · rw [Function.update_of_ne htc]
  | install =>
    exact LogState.grows_of_records (fun _ => le_rfl) hballot hsame rfl rfl rfl (fun _ _ => le_rfl) rfl

/-- No path takes anything back. -/
theorem LogState.Grows.of_path (run : Reachable LogState.First (LogStep quorums may) s)
    (path : Relation.ReflTransGen (LogStep quorums may) s s') : s.Grows s' := by
  induction path with
  | refl => exact LogState.Grows.refl s
  | tail hpath hstep ih =>
    exact ih.trans (hstep.grows (logInvariant_of_reachable (run.trans hpath)))

/-- What a participant that is not restarted never takes back of its own: what its snapshot covers, how
far it has committed, and the entries up to there. -/
structure LogState.Advances (s s' : LogState Id E) (v : Id) : Prop where
  snap : s.snap v ≤ s'.snap v
  commit : s.commit v ≤ s'.commit v
  agree : AgreeBelow (s.commit v) (s.log v) (s'.log v)

omit [Stamped E] [DecidableEq Id] in
/-- Nothing is taken back when nothing happens. -/
theorem LogState.Advances.refl (s : LogState Id E) (v : Id) : s.Advances s v :=
  ⟨le_rfl, le_rfl, .refl _ _⟩

omit [Stamped E] [DecidableEq Id] in
/-- Advances add up. -/
theorem LogState.Advances.trans {s₁ s₂ s₃ : LogState Id E} {v : Id} (h : s₁.Advances s₂ v)
    (h' : s₂.Advances s₃ v) : s₁.Advances s₃ v :=
  ⟨h.snap.trans h'.snap, h.commit.trans h'.commit, h.agree.trans (h'.agree.mono h.commit)⟩

omit [Stamped E] in
/-- Changing one participant's log keeps committed entries if they are kept there. -/
theorem agreeBelow_update {k : Id → ℕ} {logs : Id → List E} {v : Id} {l : List E}
    (h : AgreeBelow (k v) (logs v) l) (w : Id) :
    AgreeBelow (k w) (logs w) (Function.update logs v l w) := by
  by_cases hw : w = v
  · rw [hw, Function.update_self]
    exact h
  · rw [Function.update_of_ne hw]
    exact .refl _ _

/-- No step changes what a participant has committed. -/
theorem LogStep.agree (h : LogInvariant quorums s) (hstep : LogStep quorums may s s') (w : Id) :
    AgreeBelow (s.commit w) (s.log w) (s'.log w) := by
  cases hstep with
  | poll | observe | grant | win | retreat | advance | compact => exact .refl _ _
  | append c e hstanding hstamp =>
    exact agreeBelow_update (agreeBelow_append _ (h.commit_le c)).symm w
  | accept v p m k l hled hother hm hprev hk hcommit hmerge =>
    refine agreeBelow_update ?_ w
    rcases h.merged hled hprev hmerge with ⟨rfl, _⟩ | ⟨rfl, j, hjm, _, _, hdiffer⟩
    · exact .refl _ _
    · have hle : s.commit v ≤ j := by
        by_contra hlt
        exact hdiffer (h.commit_agrees hled j (by omega))
      exact (h.commit_agrees hled).trans (agreeBelow_take (by omega)).symm
  | install v k hled hother hsnap hcommit hmay =>
    refine agreeBelow_update (fun j hj => ?_) w
    have hlen : ((s.leaderLog (s.term v)).take k).length = k :=
      List.length_take_of_le (hcommit.trans (h.leader_commit_le _ hled))
    by_cases hjk : j < k
    · rw [List.getElem?_append_left (by omega), h.commit_agrees hled j hj]
      exact (agreeBelow_take le_rfl j hjk).symm
    · rw [List.getElem?_append_right (by omega), hlen, List.getElem?_drop, Nat.add_sub_cancel' (by omega)]

omit [Stamped E] in
/-- Raising one number of a family. -/
theorem le_update {f : Id → ℕ} {v : Id} {k : ℕ} (hk : f v ≤ k) (w : Id) : f w ≤ Function.update f v k w := by
  by_cases hw : w = v
  · rw [hw, Function.update_self]
    exact hk
  · rw [Function.update_of_ne hw]

/-- No step uncovers what a snapshot covers. -/
theorem LogStep.snap_le (hstep : LogStep quorums may s s') (w : Id) : s.snap w ≤ s'.snap w := by
  cases hstep with
  | poll | observe | grant | win | retreat | append | accept | advance => exact le_rfl
  | compact v k hsnap hcommit => exact le_update hsnap w
  | install v k hled hother hsnap hcommit hmay => exact le_update hsnap w

/-- A step that does not lower a participant's commit position takes nothing back of its own. -/
theorem LogStep.advances (h : LogInvariant quorums s) (hstep : LogStep quorums may s s') {v : Id}
    (hcommit : s.commit v ≤ s'.commit v) : s.Advances s' v :=
  ⟨hstep.snap_le v, hcommit, hstep.agree h v⟩

end ConsensusLab.Foundation
