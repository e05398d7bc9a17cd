import ConsensusLab.Raft.LogMirror

/-!
# RPC handlers as steps of the replicated log

A granted vote, merged entries and an installed snapshot are one step of the replicated
log each, after at most one step to a later term. The handler compares terms only where
the node still has an entry, which is why merging and installing are as lenient in the
protocol as they are in the code.
-/

namespace ConsensusLab.Raft

open Foundation

variable {m : Membership} {may : RaftLog → String → ℕ → Prop} {a a' : RaftLog} {id caller : String}
  {n n' : Node} {d d' : PersistentState} {lost : PersistentState → Prop}

/-- What a handler leaves behind, and what backs its response; a leader's commit index is not the
handlers' business. -/
def Answered {R : Type} (m : Membership) (may : RaftLog → String → ℕ → Prop) (a : RaftLog) (id : String)
    (n : Node) (request : Request) (wrap : R → Reply) (r : Node × Except RaftError R)
    (d' : PersistentState) : Prop :=
  ∃ a', LogRun m may id a a' ∧ LogMirror a' id r.1 d' ∧ Persists id a n a' r.1 ∧
    n.lastApplied ≤ r.1.lastApplied ∧ (r.1.role = .leader → r.1.commitIndex = n.commitIndex) ∧
    ∀ resp, r.2 = .ok resp → ReplyBacked a' id request (wrap resp)

/-- A handler that goes on as a follower after a step to a later term. -/
theorem Answered.after {R : Type} {request : Request} {wrap : R → Reply} {r : Node × Except RaftError R}
    (h : Answered m may a' id n' request wrap r d) (hrun : LogRun m may id a a')
    (hrole : n'.role = .follower) (happlied : n'.lastApplied = n.lastApplied) :
    Answered m may a id n request wrap r d := by
  obtain ⟨a'', hrun', hmirror, hpers, happlied', _, hreply⟩ := h
  have hfollows : r.1.role = .follower := by
    rcases hpers with hf | ⟨hsame, _⟩
    · exact hf
    · exact hsame.trans hrole
  refine ⟨a'', hrun.trans hrun', hmirror, Or.inl hfollows, happlied ▸ happlied', fun hl => ?_, hreply⟩
  rw [hfollows] at hl
  cases hl

/-- A response that changes nothing. -/
theorem LogMirror.answered {R : Type} {request : Request} {wrap : R → Reply} {resp : R}
    (h : LogMirror a id n d) (hreply : ReplyBacked a id request (wrap resp)) :
    Answered m may a id n request wrap (n, .ok resp) d :=
  ⟨a, .refl a, h, Or.inr ⟨rfl, rfl, rfl⟩, Int.le_refl _, fun _ => rfl,
    fun _ hresp => by cases hresp; exact hreply⟩

/-- Voting for a candidate whose log is at least as up to date. -/
theorem LogMirror.castVote (hinv : LogInvariant m.quorums a) (h : LogMirror a id n d)
    {req : RequestVoteRequest} (hname : req.candidateID ≠ "")
    (hback : CallBacked a req.candidateID (.vote req)) (hterm : req.term = n.currentTerm) :
    (n.castVote req).Ensures False lost (Answered m may a id n (.vote req) .vote) d := by
  obtain ⟨t, l, htreq, hpolled, hindex, hlast⟩ := hback
  have hself : a.term id = t := by
    have := h.ballots.term
    omega
  refine Node.castVote_rule (h.answered nofun) fun hopen hfresh => ⟨nofun, ?_⟩
  have hballot : a.ballot (a.term id) id = none ∨
      a.ballot (a.term id) id = some req.candidateID := by
    rw [h.ballots.vote]
    rcases hopen with hnone | hsame
    · exact Or.inl (if_pos hnone)
    · rw [hsame]
      exact Or.inr (if_neg hname)
  have hup : UpToDate l (a.log id) := by
    rw [Node.upToDate, h.logs.window.lastLogTerm, h.logs.window.lastLogIndex, hindex, hlast] at hfresh
    unfold UpToDate
    omega
  refine ⟨_, .single hinv (.grant a id req.candidateID l hballot (hself ▸ hpolled) hup)
    (fun w hw => ?_) (le_refl _), ⟨⟨h.ballots.term, ?_, h.ballots.healthy⟩, h.logs.keep rfl rfl rfl rfl,
    fun hl => ?_, h.disk.save rfl ⟨rfl, rfl, rfl⟩ ⟨rfl, rfl, rfl⟩⟩, Or.inr ⟨rfl, rfl, rfl⟩, Int.le_refl _,
    fun _ => rfl, fun resp hresp => ?_⟩
  · have hcol : ∀ u, setAt a.ballot (a.term id) id (some req.candidateID) u w = a.ballot u w :=
      fun u => setAt_of_ne _ _ fun hand => hw hand.2
    simp only [logView, hcol]
  · exact (setAt_self ..).trans (if_neg hname).symm
  · have hp := h.leader hl
    exact ⟨hp.standing, hp.own, hp.matched, hp.next⟩
  · cases hresp
    exact fun _ => ⟨t, htreq, hself ▸ setAt_self ..⟩

/-- Handling a vote request. -/
theorem LogMirror.handleRequestVote (hinv : LogInvariant m.quorums a) (h : LogMirror a id n d)
    {req : RequestVoteRequest} (hname : req.candidateID ≠ "")
    (hback : CallBacked a req.candidateID (.vote req)) :
    (n.handleRequestVote req).Ensures False lost (Answered m may a id n (.vote req) .vote) d := by
  refine Node.handleRequestVote_rule (fun hd => ?_) (fun _ _ => h.answered nofun)
    (fun _ hterm => ⟨nofun, ?_⟩) (fun _ hterm => h.castVote hinv hname hback hterm)
  · rw [h.ballots.healthy] at hd
    cases hd
  · obtain ⟨a₁, hrun, hmirror⟩ : ∃ a', LogRun m may id a a' ∧ LogMirror a' id
        { n.adoptTerm req.term with role := .follower }
        { d with hard := (n.adoptTerm req.term).hardState } :=
      h.observe hinv hterm rfl rfl rfl nofun ⟨rfl, rfl, rfl⟩ ⟨rfl, rfl, rfl⟩
    have hcast : Section.Ensures _ False lost (Answered m may a₁ id _ (.vote req) .vote) _ :=
      hmirror.castVote (hrun.path.invariant hinv) hname (hback.mono hinv (LogPath.grows hinv hrun.path)) rfl
    exact hcast.mono (fun _ hl => hl) fun r d' hr => hr.after hrun rfl rfl

section Merge

variable {l lead : List Entry} {s p q : ℕ}

/-- The entries that a node holds already are at the same positions of the whole log. -/
theorem Node.Windows.held (hw : n.Windows l s) (hreach : p ≤ l.length) {held more : List LogEntry}
    (hsplit : ((lead.take q).drop p).map Entry.kept = held ++ more) (hheld : n.Holds (p + 1) held) :
    p + held.length ≤ l.length ∧
      ∀ j, max p s ≤ j → j < p + held.length → termAt l j = termAt lead j := by
  refine ⟨?_, fun j hlow hhigh => ?_⟩
  · rcases Nat.eq_zero_or_pos held.length with hzero | hpos
    · omega
    · have hcovered := hw.covered
      rcases hheld (held.length - 1) _ (List.getElem?_eq_getElem (by omega)) with hle | ⟨own, hown, _⟩
      · rw [hw.index] at hle
        omega
      · have hlast := (Node.entryAt_eq_some hown).2.1
        rw [hw.lastLogIndex] at hlast
        omega
  · have hget : held[j - p]? = some held[j - p] := List.getElem?_eq_getElem (by omega)
    have hlead : ((lead.take q).drop p).map Entry.kept = held ++ more := hsplit
    have hpos : lead[j]?.map Entry.kept = some held[j - p] := by
      have := congrArg (fun entries => entries[j - p]?) hlead
      simp only [List.getElem?_map, List.getElem?_drop, List.getElem?_append_left (by omega : j - p < held.length),
        Nat.add_sub_cancel' (by omega : p ≤ j), hget] at this
      rw [List.getElem?_take] at this
      split at this
      · exact this
      · cases this
    obtain ⟨w, hw', hkept⟩ := Option.map_eq_some_iff.mp hpos
    rcases hheld (j - p) _ hget with hle | ⟨own, hown, hterm⟩
    · rw [hw.index] at hle
      omega
    · rw [show (p : Int) + 1 + ((j - p : ℕ) : Int) = (j : Int) + 1 by omega] at hown
      obtain ⟨t, ht, hown'⟩ := hw.termAt_of_entryAt hown
      have hlt : w.term = t := by
        have : ((w.term : ℕ) : Int) = t := by
          rw [← hown', hterm, ← hkept]
          rfl
        exact Int.ofNat_inj.mp this
      rw [ht, termAt, hw', Option.map_some, ← hlt]
      rfl

/-- The entries behind those that a node holds already. -/
theorem rest_of_split {held more : List LogEntry}
    (hsplit : ((lead.take q).drop p).map Entry.kept = held ++ more) :
    more = ((lead.take q).drop (p + held.length)).map Entry.kept := by
  rw [← List.drop_drop, List.map_drop, hsplit, List.drop_left' rfl]

/-- Merging the leader's entries into a node's log merges them into the whole log, on disk as well. -/
theorem Node.Windows.mergeEntries (hw : n.Windows l s) (hd : d.log = n.log) (hreach : p ≤ l.length)
    (hq : q ≤ lead.length) (hpq : p ≤ q) :
    (n.mergeEntries (p + 1) (((lead.take q).drop p).map Entry.kept)).Ensures False lost
      (fun r d' => ∃ l' entries, Merges s p q lead l l' ∧ r = ({ n with log := entries }, .ok ()) ∧
        ({ n with log := entries } : Node).Windows l' s ∧ d' = { d with log := entries }) d := by
  have hlen : (((lead.take q).drop p).map Entry.kept).length = q - p := by
    rw [List.length_map, List.length_drop, List.length_take_of_le hq]
  have hterm : ∀ {held entry rest}, ((lead.take q).drop p).map Entry.kept = held ++ entry :: rest →
      p + held.length < q ∧ ∃ w, lead[p + held.length]? = some w ∧ entry = w.kept := by
    intro held entry rest hsplit
    have hlt : p + held.length < q := by
      rw [hsplit, List.length_append, List.length_cons] at hlen
      omega
    have hget := congrArg (fun entries => entries[held.length]?) hsplit
    simp only [List.getElem?_map, List.getElem?_drop, List.getElem?_append_right (Nat.le_refl _),
      Nat.sub_self, List.getElem?_cons_zero, List.getElem?_take, if_pos hlt] at hget
    obtain ⟨w, hw', hkept⟩ := Option.map_eq_some_iff.mp hget
    exact ⟨hlt, w, hw', hkept.symm⟩
  refine Node.mergeEntries_rule (fun hheld => ?_) (fun held entry rest hsplit hheld hsnap hlast => ?_)
    (fun held entry rest own hsplit hheld hown hterm' => ?_)
  · obtain ⟨hle, hsame⟩ := hw.held hreach (List.append_nil _).symm hheld
    rw [hlen, Nat.add_sub_cancel' hpq] at hle hsame
    exact ⟨l, n.log, Or.inl ⟨rfl, hle, hsame⟩, rfl, hw, by rw [← hd]⟩
  · obtain ⟨hle, hsame⟩ := hw.held hreach hsplit hheld
    obtain ⟨hlt, w, hw', hkept⟩ := hterm hsplit
    rw [hw.index] at hsnap
    rw [hw.lastLogIndex] at hlast
    have hend : p + held.length = l.length := by omega
    refine ⟨False.elim, l ++ (lead.take q).drop (p + held.length), n.log ++ entry :: rest,
      Or.inr ⟨p + held.length, ?_⟩, rfl, ?_, ?_⟩
    · refine ⟨by omega, hlt, hle, ?_, hsame, ?_⟩
      · rw [termAt, termAt, hw', List.getElem?_eq_none (by omega)]
        exact fun heq => by cases heq
      · rw [show l.take (p + held.length) = l from List.take_of_length_le (by omega)]
    · exact hw.append _ rfl rfl (by rw [← rest_of_split hsplit])
    · rw [StorageCall.effect, hd]
  · obtain ⟨hle, hsame⟩ := hw.held hreach hsplit hheld
    obtain ⟨hlt, w, hw', hkept⟩ := hterm hsplit
    rw [show (p : Int) + 1 + (held.length : Int) = ((p + held.length : ℕ) : Int) + 1 by omega] at hown ⊢
    obtain ⟨j, whole, hj, hsj, hwhole, hownkept⟩ := hw.of_entryAt hown
    obtain rfl : p + held.length = j := by omega
    have hcut : (((p + held.length : ℕ) : Int) + 1 - n.snapshotIndex - 1).toNat = p + held.length - s := by
      rw [hw.index]
      omega
    have hcut' : (max 0 (((p + held.length : ℕ) : Int) + 1 - n.snapshotIndex - 1)).toNat =
        p + held.length - s := by
      rw [hw.index]
      omega
    simp only [StorageCall.effect, hcut, hcut']
    refine ⟨False.elim, False.elim, l.take (p + held.length) ++ (lead.take q).drop (p + held.length),
      n.log.take (p + held.length - s) ++ entry :: rest,
      Or.inr ⟨p + held.length, by omega, hlt, hle, ?_, hsame, rfl⟩, rfl, ?_, ?_⟩
    · rw [termAt, termAt, hw', hwhole]
      intro heq
      have hstamp : whole.term = w.term := Option.some.inj heq
      exact hterm' (by rw [hownkept, hkept, Entry.kept, Entry.kept, hstamp])
    · have hcutw : ({ n with log := n.log.take (p + held.length - s) } : Node).Windows
          (l.take (p + held.length)) s := hw.take hsj rfl rfl rfl
      exact hcutw.append _ rfl rfl (by rw [← rest_of_split hsplit])
    · rw [hd]

end Merge

/-- An entry's term occurs no later than the entry. -/
theorem Node.firstIndexOfTerm_le {i : Int} {own : LogEntry} (hown : n.entryAt i = some own)
    (hi : 0 ≤ i) : n.firstIndexOfTerm own.term ≤ i := by
  obtain ⟨hlow, _, hget⟩ := entryAt_eq_some hown
  unfold Node.firstIndexOfTerm
  split
  · exact hi
  · rename_i j hj
    obtain ⟨hlt, _, hfirst⟩ := List.findIdx?_eq_some_iff_getElem.mp hj
    obtain ⟨hbound, hval⟩ := List.getElem?_eq_some_iff.mp hget
    have hle : j ≤ (i - n.snapshotIndex - 1).toNat := by
      by_contra hlater
      have := hfirst _ (by omega : (i - n.snapshotIndex - 1).toNat < j)
      rw [hval] at this
      simp at this
    omega

/-- A rejection does not point behind the position it rejects. -/
theorem Node.PrevConflict.conflictIndex_le {req : AppendEntriesRequest} {resp : AppendEntriesResponse}
    (h : n.PrevConflict req resp) (hprev : 0 ≤ req.prevLogIndex) :
    resp.success = false ∧ resp.conflictIndex ≤ req.prevLogIndex + 1 := by
  cases h with
  | missing hmissing => exact ⟨rfl, by simp only [rejection]; omega⟩
  | term hown hterm =>
    have := firstIndexOfTerm_le hown hprev
    exact ⟨rfl, by simp only [rejection]; omega⟩
  | boundary hat hterm => exact ⟨rfl, by simp only [rejection]; omega⟩

/-- Merging entries and following the leader's commit position is one step, after which the leader may
count the follower. -/
theorem LogMirror.accept (hinv : LogInvariant m.quorums a) (h : LogMirror a id n d)
    {req : AppendEntriesRequest} {t p q k : ℕ} (hback : AppendBacked a caller req t p q k)
    (hother : id ≠ caller) (hself : a.term id = t)
    (hprev : a.snap id < p → p ≤ (a.log id).length ∧
      termAt (a.log id) (p - 1) = termAt (a.leaderLog t) (p - 1))
    {l : List Entry} (hmerge : Merges (a.snap id) p q (a.leaderLog t) (a.log id) l)
    (hwindow : n'.Windows l (a.snap id)) (hcommit : n'.commitIndex = max (a.commit id) k)
    (hrole : n'.role = .follower)
    (hhard : n'.currentTerm = n.currentTerm ∧ n'.votedFor = n.votedFor ∧ n'.degraded = n.degraded)
    (hkept : n'.snapshotTerm = n.snapshotTerm ∧ n'.snapshot = n.snapshot ∧
      n'.lastApplied = n.lastApplied ∧ n'.pendingSnapshot = n.pendingSnapshot)
    (hsaved : Saved n' d') :
    ∃ a', LogRun m may id a a' ∧ LogMirror a' id n' d' ∧ Matching a' t id q := by
  subst hself
  have hled : a.Led (a.term id) := by
    rw [LogState.Led, hback.leader]
    exact Option.some_ne_none caller
  have hnot : a.leader (a.term id) ≠ some id := by
    rw [hback.leader]
    exact fun heq => hother (Option.some.inj heq).symm
  have hindex : n'.snapshotIndex = n.snapshotIndex := hwindow.index.trans h.logs.window.index.symm
  have hstep : LogStep m.quorums may a _ := .accept a id p q k l hled hnot hback.within.2 hprev
    hback.commit.2.1 hback.commit.2.2 hmerge
  have hraise : a.commit id ≤ Function.update a.commit id (max (a.commit id) k) id := by
    rw [Function.update_self]
    omega
  refine ⟨_, .single hinv hstep (fun w hw => ?_) hraise, ⟨⟨?_, ?_, ?_⟩, Logs.of_window
    (Function.update_self ..) rfl (Function.update_self ..) hwindow hcommit ?_ ?_ ?_ ?_, fun hl => ?_, hsaved⟩, ?_⟩
  · simp only [logView, Function.update_of_ne hw]
  · rw [hhard.1, h.ballots.term]
  · rw [hhard.2.1, ← h.ballots.vote]
  · rw [hhard.2.2, h.ballots.healthy]
  · rw [hindex, hkept.1, hkept.2.1]
    exact h.logs.snapshot
  · rw [hindex, hkept.2.1]
    exact h.logs.held
  · have := h.logs.applied
    have := h.logs.commit
    rw [hkept.2.2.1, hcommit]
    omega
  · rw [hindex, hkept.2.2.2]
    exact h.logs.pending
  · rw [hrole] at hl
    cases hl
  · by_cases hsnap : a.snap id < q
    · refine Or.inl (Int.ofNat_le.mpr ?_)
      refine le_of_le_of_eq ?_ (setAt_self ..).symm
      rw [if_pos hsnap]
      omega
    · refine Matching.mono (Or.inr fun j hj => hinv.committed_matches hled ?_) hled (hstep.grows hinv)
      have := hinv.snap_le id
      omega

/-- The leader's preceding entry, seen from the whole log. -/
theorem Node.PrevMatches.whole {req : AppendEntriesRequest} {t p q k : ℕ} (hmatch : n.PrevMatches req)
    (hback : AppendBacked a caller req t p q k) {l : List Entry} {s : ℕ} (hw : n.Windows l s) :
    p ≤ l.length ∧ (s < p → termAt l (p - 1) = termAt (a.leaderLog t) (p - 1)) := by
  have hreach : p ≤ l.length := by
    have := hmatch.reached
    rw [hw.lastLogIndex, hback.prev] at this
    omega
  refine ⟨hreach, fun hlt => ?_⟩
  obtain ⟨own, hown, hterm⟩ := hmatch.entry (by rw [hw.index, hback.prev]; omega)
  rw [hback.prev, show (p : Int) = ((p - 1 : ℕ) : Int) + 1 by omega] at hown
  obtain ⟨u, hu, hown'⟩ := hw.termAt_of_entryAt hown
  have hlen : ((a.leaderLog t).take p).length = p := List.length_take_of_le (by have := hback.within; omega)
  have hlead := termAt_last (l := (a.leaderLog t).take p) (by omega)
  rw [hlen] at hlead
  have hsame : lastTerm ((a.leaderLog t).take p) = u := by
    have : ((lastTerm ((a.leaderLog t).take p) : ℕ) : Int) = u := by rw [← hback.prevTerm, ← hterm, hown']
    exact Int.ofNat_inj.mp this
  rw [hu, ← termAt_congr (agreeBelow_take (le_refl p) (p - 1) (by omega)), hlead, hsame]

/-- Handling entries in the current term. -/
theorem LogMirror.appendFromLeader (hinv : LogInvariant m.quorums a) (h : LogMirror a id n.asFollower d)
    {req : AppendEntriesRequest} (hback : CallBacked a caller (.append req)) (hother : id ≠ caller)
    (hterm : req.term = n.currentTerm) :
    (n.appendFromLeader req).Ensures False lost (Answered m may a id n.asFollower (.append req) .append) d := by
  obtain ⟨t, p, q, k, hback⟩ := hback
  have hself : a.term id = t := by
    have hcur : n.currentTerm = a.term id := h.ballots.term
    have := hback.term
    omega
  have hw := h.logs.window
  refine Node.appendFromLeader_rule (fun resp hconflict => ?_) fun hmatch => ?_
  · have hprev : (0 : Int) ≤ req.prevLogIndex := by
      rw [hback.prev]
      omega
    obtain ⟨hfail, hindex⟩ := hconflict.conflictIndex_le hprev
    exact h.answered ⟨fun hsuccess => absurd hsuccess (Bool.eq_false_iff.mp hfail), fun _ => hindex⟩
  obtain ⟨hreach, hprev⟩ := hmatch.whole hback hw
  have hmerge : Section.Ensures _ False lost _ d :=
    hw.mergeEntries h.disk.log hreach hback.within.2 hback.within.1
  rw [hback.prev, hback.entries]
  refine hmerge.mono (fun _ hl => hl) ?_
  rintro _ _ ⟨l, entries, hmerges, rfl, hwindow, rfl⟩
  refine ⟨nofun, fun _ => ?_⟩
  have hlen : q ≤ l.length := hmerges.le_length hback.within.2
  -- the follower's log reaches the leader's commit position, so the minimum is that position
  have hfollow : ∀ {final : Node} {d' : PersistentState}, final.Windows l (a.snap id) →
      final.commitIndex = max (a.commit id) k → final.role = .follower →
      (final.currentTerm = n.asFollower.currentTerm ∧ final.votedFor = n.asFollower.votedFor ∧
        final.degraded = n.asFollower.degraded) →
      (final.snapshotTerm = n.asFollower.snapshotTerm ∧ final.snapshot = n.asFollower.snapshot ∧
        final.lastApplied = n.asFollower.lastApplied ∧
        final.pendingSnapshot = n.asFollower.pendingSnapshot) → Saved final d' →
      Answered m may a id n.asFollower (.append req) .append (final, .ok n.acceptance) d' := by
    intro final d' hwin hcommit hrole hhard hkept hsaved
    obtain ⟨a', hrun, hmirror, hmatching⟩ := h.accept hinv hback hother hself (fun hlt => ⟨hreach, hprev hlt⟩)
      hmerges hwin hcommit hrole hhard hkept hsaved
    refine ⟨a', hrun, hmirror, Or.inl hrole, hkept.2.2.1.ge, fun hl => ?_, fun resp hresp => ?_⟩
    · rw [hrole] at hl
      cases hl
    cases hresp
    refine ⟨fun _ => ⟨t, hback.term, ?_⟩, nofun⟩
    rw [hback.prev, hback.entries, List.length_map, List.length_drop, List.length_take_of_le hback.within.2,
      show (p : Int) + ((q - p : ℕ) : Int) = q by have := hback.within.1; omega]
    exact hmatching
  have hcommit : n.asFollower.commitIndex = a.commit id := h.logs.commit
  have hkc := hback.commit
  refine Node.followCommit_rule (fun hle => ⟨nofun, fun _ => ?_⟩)
    (fun hlt => ⟨nofun, nofun, fun _ => ?_⟩)
  · refine hfollow hwindow ?_ rfl ⟨rfl, rfl, rfl⟩ ⟨rfl, rfl, rfl, rfl⟩
      ⟨h.disk.term, h.disk.vote, h.disk.base, rfl, h.disk.snapshot, h.disk.commit⟩
    have hle' : req.leaderCommit ≤ n.asFollower.commitIndex := hle
    have hsame : n.asFollower.commitIndex = max (a.commit id) k := by omega
    exact hsame
  · refine hfollow (hwindow.keep rfl rfl rfl) ?_ rfl ⟨rfl, rfl, rfl⟩ ⟨rfl, rfl, rfl, rfl⟩
      ⟨rfl, rfl, h.disk.base, rfl, h.disk.snapshot, fun _ => rfl⟩
    have hlt' : n.asFollower.commitIndex < req.leaderCommit := hlt
    have hsame : min req.leaderCommit (l.length : Int) = max (a.commit id) k := by omega
    rw [← hwindow.lastLogIndex] at hsame
    exact hsame

/-- Handling an AppendEntries request. -/
theorem LogMirror.handleAppendEntries (hinv : LogInvariant m.quorums a) (h : LogMirror a id n d)
    {req : AppendEntriesRequest} (hback : CallBacked a caller (.append req)) (hother : id ≠ caller) :
    (n.handleAppendEntries req).Ensures False lost (Answered m may a id n (.append req) .append) d := by
  refine Node.handleAppendEntries_rule (fun hd => ?_) (fun _ _ => h.answered ⟨nofun, fun _ => ?_⟩)
    (fun _ hterm => ⟨nofun, ?_⟩) (fun _ hterm => ?_)
  · rw [h.ballots.healthy] at hd
    cases hd
  · obtain ⟨t, p, q, k, hback⟩ := hback
    rw [hback.prev]
    change (0 : Int) ≤ _
    omega
  · obtain ⟨a₁, hrun, hmirror⟩ : ∃ a', LogRun m may id a a' ∧ LogMirror a' id
        (n.adoptTerm req.term).asFollower { d with hard := (n.adoptTerm req.term).hardState } :=
      h.observe hinv hterm rfl rfl rfl nofun ⟨rfl, rfl, rfl⟩ ⟨rfl, rfl, rfl⟩
    have happend : Section.Ensures _ False lost (Answered m may a₁ id _ (.append req) .append) _ :=
      hmirror.appendFromLeader (hrun.path.invariant hinv)
        (hback.mono hinv (LogPath.grows hinv hrun.path)) hother rfl
    exact happend.mono (fun _ hl => hl) fun r d' hr => hr.after hrun rfl rfl
  · have hfollow : LogMirror a id n.asFollower d := h.keep rfl rfl rfl rfl nofun
    have happend : Section.Ensures _ False lost (Answered m may a id _ (.append req) .append) _ :=
      hfollow.appendFromLeader hinv hback hother hterm
    exact happend.mono (fun _ hl => hl) fun r d' hr => hr.after (.refl a) rfl rfl

/-- Whatever state of the replicated log a node with this history mirrors, the snapshot may be
installed in it. -/
def Permitted (may : RaftLog → String → ℕ → Prop) (id caller : String) (n : Node)
    (req : InstallSnapshotRequest) : Prop :=
  ∀ a n' d t k, n'.history = n.history → LogMirror a id n' d → InstallBacked a caller req t k →
    a.term id = t → n.currentTerm ≤ req.term → a.snap id ≤ k → k ≤ (a.leaderLog t).length → may a id k

/-- Installing a leader's snapshot is one step. -/
theorem LogMirror.install (hinv : LogInvariant m.quorums a) (h : LogMirror a id n d)
    {req : InstallSnapshotRequest} {t k : ℕ} (hback : InstallBacked a caller req t k)
    (hother : id ≠ caller) (hself : a.term id = t) (hsnap : a.snap id ≤ k) (hmay : may a id k)
    (hrole : n.role = .follower) (hsaved : Saved (n.adoptSnapshot req.snapshot) d') :
    ∃ a', LogRun m may id a a' ∧ LogMirror a' id (n.adoptSnapshot req.snapshot) d' := by
  subst hself
  have hled : a.Led (a.term id) := by
    rw [LogState.Led, hback.leader]
    exact Option.some_ne_none caller
  have hnot : a.leader (a.term id) ≠ some id := by
    rw [hback.leader]
    exact fun heq => hother (Option.some.inj heq).symm
  have hindex : req.snapshot.lastIncludedIndex = k := hback.index
  have hcommit : n.commitIndex = a.commit id := h.logs.commit
  have hbelow : n.snapshotIndex = a.snap id := h.logs.window.index
  have hraise : a.commit id ≤ Function.update a.commit id (max (a.commit id) k) id := by
    rw [Function.update_self]
    omega
  have hshift : (req.snapshot.lastIncludedIndex - n.snapshotIndex).toNat = k - a.snap id := by omega
  have hreplaced := h.logs.window.replace hsnap
    (hback.commit.trans (hinv.leader_commit_le _ hled)) hback.index hback.lastTerm
    (hshift ▸ Node.adoptSnapshot_log n req.snapshot)
  refine ⟨_, .single hinv (.install a id k hled hnot hsnap hback.commit hmay) (fun w hw => ?_) hraise,
    ⟨h.ballots.term, h.ballots.vote, h.ballots.healthy⟩, Logs.of_window (Function.update_self ..)
      (Function.update_self ..) (Function.update_self ..) hreplaced ?_ ?_
      (fun _ hnone => by cases hnone) ?_ ?_, fun hl => ?_, hsaved⟩
  · simp only [logView, Function.update_of_ne hw]
  · simp only [Node.adoptSnapshot]
    split <;> omega
  · rintro s hs
    cases hs
    exact ⟨rfl, rfl⟩
  · have := h.logs.applied
    simp only [Node.adoptSnapshot]
    split <;> omega
  · intro s hs
    simp only [Node.adoptSnapshot] at hs ⊢
    split at hs
    · cases hs
      exact Int.le_refl _
    · have := h.logs.pending s hs
      omega
  · have hl' : n.role = .leader := hl
    rw [hrole] at hl'
    cases hl'

/-- Handling a snapshot in the current term. -/
theorem LogMirror.installFromLeader (hinv : LogInvariant m.quorums a) (h : LogMirror a id n.asFollower d)
    {req : InstallSnapshotRequest} (hback : CallBacked a caller (.install req)) (hother : id ≠ caller)
    (hterm : req.term = n.currentTerm) (hmay : Permitted may id caller n req) :
    (n.installFromLeader req).Ensures False lost
      (Answered m may a id n.asFollower (.install req) .install) d := by
  obtain ⟨t, k, hback⟩ := hback
  have hself : a.term id = t := by
    have hcur : n.currentTerm = a.term id := h.ballots.term
    have := hback.term
    omega
  refine Node.installFromLeader_rule (fun _ => h.answered trivial) fun hnew => ⟨False.elim, ?_⟩
  have hsnap : a.snap id ≤ k := by
    have hbelow : n.snapshotIndex = a.snap id := h.logs.window.index
    have := hback.index
    omega
  have hlen : k ≤ (a.leaderLog t).length := by
    refine hback.commit.trans (hinv.leader_commit_le t ?_)
    rw [LogState.Led, hback.leader]
    exact Option.some_ne_none caller
  have hdone : ∀ {d' : PersistentState}, Saved (n.asFollower.adoptSnapshot req.snapshot) d' →
      Answered m may a id n.asFollower (.install req) .install
        ((n.asFollower.adoptSnapshot req.snapshot).notifyApply, .ok { term := n.currentTerm }) d' := by
    intro d' hsaved
    obtain ⟨a', hrun, hmirror⟩ := h.install hinv hback hother hself hsnap
      (hmay a n.asFollower d t k rfl h hback hself (by omega) hsnap hlen) rfl hsaved
    exact ⟨a', hrun, hmirror.keep rfl rfl rfl rfl (fun hl => by cases hl), Or.inl rfl, Int.le_refl _,
      (fun hl => by cases hl), fun _ _ => trivial⟩
  exact Node.applySnapshot_rule
    ⟨False.elim, hdone ⟨h.disk.term, h.disk.vote, rfl, rfl, rfl, fun hnone => by cases hnone⟩⟩
    (fun _ => ⟨False.elim, hdone ⟨rfl, rfl, rfl, rfl, rfl, fun hnone => by cases hnone⟩⟩)

/-- Handling an InstallSnapshot request. -/
theorem LogMirror.handleInstallSnapshot (hinv : LogInvariant m.quorums a) (h : LogMirror a id n d)
    {req : InstallSnapshotRequest} (hback : CallBacked a caller (.install req)) (hother : id ≠ caller)
    (hmay : Permitted may id caller n req) :
    (n.handleInstallSnapshot req).Ensures False lost (Answered m may a id n (.install req) .install) d := by
  refine Node.handleInstallSnapshot_rule (fun hd => ?_) (fun _ _ => h.answered trivial)
    (fun _ hterm => ⟨nofun, ?_⟩) (fun _ hterm => ?_)
  · rw [h.ballots.healthy] at hd
    cases hd
  · obtain ⟨a₁, hrun, hmirror⟩ : ∃ a', LogRun m may id a a' ∧ LogMirror a' id
        (n.adoptTerm req.term).asFollower { d with hard := (n.adoptTerm req.term).hardState } :=
      h.observe hinv hterm rfl rfl rfl nofun ⟨rfl, rfl, rfl⟩ ⟨rfl, rfl, rfl⟩
    have hinstall : Section.Ensures _ False lost (Answered m may a₁ id _ (.install req) .install) _ :=
      hmirror.installFromLeader (hrun.path.invariant hinv)
        (hback.mono hinv (LogPath.grows hinv hrun.path)) hother rfl
        (fun a n' d t k hhistory hm hb hself _ => hmay a n' d t k hhistory hm hb hself hterm.le)
    exact hinstall.mono (fun _ hl => hl) fun r d' hr => hr.after hrun rfl rfl
  · have hfollow : LogMirror a id n.asFollower d := h.keep rfl rfl rfl rfl nofun
    have hinstall : Section.Ensures _ False lost (Answered m may a id _ (.install req) .install) _ :=
      hfollow.installFromLeader hinv hback hother hterm hmay
    exact hinstall.mono (fun _ hl => hl) fun r d' hr => hr.after (.refl a) rfl rfl

end ConsensusLab.Raft
