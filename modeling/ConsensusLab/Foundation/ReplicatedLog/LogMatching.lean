import ConsensusLab.Foundation.ReplicatedLog.Safety

/-!
# Log matching

Without restrictions on installed snapshots a participant's log follows the leaders
only from its snapshot on. If every installed snapshot continues the log it is
installed over, the whole of every log follows them, and two logs that hold the same
term at one position hold the same entries up to it.
-/

namespace ConsensusLab.Foundation

variable {Id E : Type*} [Stamped E] {quorums : QuorumSystem Id} {s s' : LogState Id E}

/-- A snapshot of the current leader up to position `k` continues the participant's own log: nothing
is kept behind it, or the log already held the leader's term at its last position. -/
def CleanInstall (s : LogState Id E) (v : Id) (k : ℕ) : Prop :=
  k = 0 ∨ (s.log v).length ≤ k ∨
    termAt (s.log v) (k - 1) = termAt (s.leaderLog (s.term v)) (k - 1)

/-- Every log follows the leaders from its first position on. -/
def LogState.Matched (s : LogState Id E) : Prop :=
  ∀ v, s.Follows 0 (s.term v) (s.log v)

/-- **Log matching.** Two logs that follow the leaders and hold one term at one position agree up to
that position. -/
theorem LogState.Follows.agree {bound bound' j t : ℕ} {l l' : List E} (h : s.Follows 0 bound l)
    (h' : s.Follows 0 bound' l') (hl : termAt l j = some t) (hl' : termAt l' j = some t) :
    AgreeBelow (j + 1) l l' := by
  intro i hi
  obtain ⟨_, _, hleft⟩ := h j t (Nat.zero_le _) hl
  obtain ⟨_, _, hright⟩ := h' j t (Nat.zero_le _) hl'
  exact (hleft i (Nat.zero_le _) (by omega)).trans (hright i (Nat.zero_le _) (by omega)).symm

/-- A clean snapshot replaces the whole log or changes nothing. -/
theorem CleanInstall.cases (h : LogInvariant quorums s) (hm : s.Matched) {v : Id} {k : ℕ}
    (hled : s.Led (s.term v)) (hclean : CleanInstall s v k) :
    (s.leaderLog (s.term v)).take k ++ (s.log v).drop k = s.log v ∨
      (s.leaderLog (s.term v)).take k ++ (s.log v).drop k = (s.leaderLog (s.term v)).take k := by
  by_cases hk : k = 0
  · left
    rw [hk, List.take_zero, List.drop_zero, List.nil_append]
  by_cases hshort : (s.log v).length ≤ k
  · right
    rw [List.drop_eq_nil_of_le hshort, List.append_nil]
  left
  obtain ⟨t, ht⟩ := exists_termAt (show k - 1 < (s.log v).length by omega)
  have hterm : termAt (s.leaderLog (s.term v)) (k - 1) = some t := by
    rcases hclean with hzero | hlen | hsame
    · exact absurd hzero hk
    · exact absurd hlen hshort
    · rw [← hsame, ht]
  have hagree := (hm v).agree (h.leader_follows _ hled) ht hterm
  rw [← (hagree.mono (show k ≤ k - 1 + 1 by omega)).take_eq, List.take_append_drop]

variable [DecidableEq Id]

/-- A step that changes one participant's log and extends the records keeps log matching if the new
log follows the leaders. -/
theorem LogState.Matched.update (hm : s.Matched) (hext : s.Extends s') (hterm : s'.term = s.term)
    {v : Id} {l : List E} (hlog : s'.log = Function.update s.log v l)
    (hnew : s'.Follows 0 (s.term v) l) : s'.Matched := by
  intro w
  rw [hlog, hterm]
  by_cases hw : w = v
  · subst w
    rw [Function.update_self]
    exact hnew
  · rw [Function.update_of_ne hw]
    exact (hm w).extend hext

/-- Steps with clean installations keep log matching. -/
theorem LogState.Matched.step (h : LogInvariant quorums s) (hm : s.Matched)
    (hstep : LogStep quorums CleanInstall s s') : s'.Matched := by
  have hext := (hstep.grows h).toExtends
  cases hstep with
  | poll c t next hterm hnext =>
    exact fun w => ((hm w).extend hext).mono le_rfl (le_update_term hterm le_rfl)
  | observe v t hterm =>
    exact fun w => ((hm w).extend hext).mono le_rfl (le_update_term hterm le_rfl)
  | grant | win | retreat | advance | compact => exact fun w => (hm w).extend hext
  | append c e hstanding hstamp =>
    refine hm.update hext rfl rfl (((hm c).extend hext).append hstamp.le ?_ ?_)
    · exact hext.led _ (hstamp ▸ h.led_of_office hstanding)
    · rw [hstamp]
      exact Function.update_self ..
  | accept v p m k l hled hother hmlen hprev hk hcommit hmerge =>
    refine hm.update hext rfl rfl ?_
    rcases h.merged hled hprev hmerge with ⟨rfl, _⟩ | ⟨rfl, _⟩
    · exact (hm v).extend hext
    · exact (h.take_follows m 0 hled).extend hext
  | install v k hled hother hsnap hcommit hmay =>
    suffices hfollows : s.Follows 0 (s.term v)
        ((s.leaderLog (s.term v)).take k ++ (s.log v).drop k) from
      hm.update hext rfl rfl (hfollows.extend hext)
    rcases CleanInstall.cases h hm hled hmay with heq | heq
    · rw [heq]
      exact hm v
    · rw [heq]
      exact h.take_follows k 0 hled

/-- Log matching holds in every state reached by clean installations only. -/
theorem matched_of_reachable (run : Reachable LogState.First (LogStep quorums CleanInstall) s) :
    s.Matched := by
  refine run.invariant (fun a ha v j t _ ht => ?_) fun a b hrun hm hstep => ?_
  · rw [ha.2.2.1 v] at ht
    cases ht
  · exact hm.step (logInvariant_of_reachable hrun) hstep

end ConsensusLab.Foundation
