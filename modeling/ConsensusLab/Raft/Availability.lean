import ConsensusLab.Raft.Campaigns

/-!
# A majority can always commit

No state that a cluster reaches while storage works is a dead end: whatever has been
lost, delayed or interrupted, any majority of two or more members can elect one of them
and commit a new command, without the others. The leader brings each peer on its side up
to date in rounds of its own main loop, by going back to where the logs meet or by
sending its snapshot, and counts the last answer.
-/

namespace ConsensusLab.Raft

open Foundation Relation

variable {m : Membership} {side : Finset String} {c c' : Cluster} {id peer : String} {n n' : Node}

section Alignment

/-- The entries that a follower keeps match the log of its term's leader. -/
theorem LogMirror.matches {a : RaftLog} {d : PersistentState} (hinv : LogInvariant m.quorums a)
    (h : LogMirror a peer n d) (hled : a.Led (a.term peer)) :
    n.Matches ((a.leaderLog (a.term peer)).map Entry.kept) := by
  intro i own e hown he hterm j hj hlow
  rw [h.logs.window.index] at hlow
  have hsnap : a.snap peer ≤ j := Int.ofNat_le.mp hlow
  obtain ⟨u, hu, hown'⟩ := h.logs.window.termAt_of_entryAt hown
  rw [List.getElem?_map] at he
  obtain ⟨whole, hwhole, rfl⟩ := Option.map_eq_some_iff.mp he
  have hlead : termAt (a.leaderLog (a.term peer)) i = some u := by
    have hsame : (u : Int) = whole.term := hown'.symm.trans hterm
    rw [termAt, hwhole, Int.ofNat_inj.mp hsame]
    rfl
  have hagree := (hinv.concurs_of_term hled (hsnap.trans hj) hu hlead).agree rfl
  rw [h.logs.window.entryAt hsnap, List.getElem?_map, hagree j (by omega)]

/-- A follower in the term of its leader follows the leader's log. -/
theorem LogMirror.follows {a : RaftLog} {d : PersistentState} (hinv : LogInvariant m.quorums a)
    (h : LogMirror a peer n d) (hled : a.Led (a.term peer)) :
    n.Follows ((a.leaderLog (a.term peer)).map Entry.kept) (a.snap peer) := by
  have hconcurs := hinv.concurs_of_commit hled (hinv.snap_le peer)
  refine ⟨h.ballots.healthy, ⟨?_, h.logs.window.index, ?_⟩, h.matches hinv hled⟩
  · rw [List.length_map]
    exact hconcurs.within
  · rw [h.logs.window.term, termBefore_kept hconcurs.within, (hconcurs.agree rfl).take_eq]

/-- A leader without a call to a peer of its term is aligned with it. -/
theorem aligned_of_undisturbed (run : ClusterReachable m Undisturbed c) (hid : id ∈ m.ids) (hpeer : peer ∈ m.ids)
    (hne : peer ≠ id) (hleads : (c.servers id).node.role = .leader)
    (hidle : (c.servers id).node.replicateInFlight peer = false)
    (hterm : (c.servers peer).node.currentTerm = (c.servers id).node.currentTerm) :
    ∃ l, (c.pair id peer).Aligned peer l := by
  obtain ⟨a, hinv, hrefines⟩ := logRefines_of_undisturbed run
  have hlog := (hrefines.servers id hid).log
  have hlog' := (hrefines.servers peer hpeer).log
  have hpresides := hlog.leader hleads
  have hequipped := equipped_of_undisturbed run hid hleads
  have hmember : peer ∈ (c.servers id).node.peers := by
    rw [(hrefines.wired.servers id hid).placed.peers]
    exact Membership.mem_peers.mpr ⟨hpeer, hne⟩
  have hsame : a.term peer = a.term id := by
    have := hlog.ballots.term
    have := hlog'.ballots.term
    omega
  have hled : a.Led (a.term peer) := hsame ▸ hinv.led_of_office hpresides.standing
  have hwhole : a.log id = a.leaderLog (a.term peer) := by rw [hsame, hinv.office_log id hpresides.standing]
  refine ⟨(a.leaderLog (a.term peer)).map Entry.kept, hleads, hidle, ⟨_, hwhole ▸ hlog.logs.window.keeps⟩,
    fun hne => ?_, hequipped.low peer hmember, hequipped.high peer hmember, Int.le_of_eq hterm, _,
    hlog'.follows hinv hled⟩
  obtain ⟨snap, hsnap⟩ := Option.ne_none_iff_exists'.mp (hlog.logs.held hne)
  exact ⟨snap, hsnap, hlog.logs.snapshot snap hsnap⟩

end Alignment

section Committing

/-- No index is left that the leader may commit. -/
def Node.Settled (n : Node) : Prop :=
  ∀ i, ¬n.Committable i

/-- What a leader knows about calls under way does not matter to what it may commit. -/
theorem Node.Settled.reflagged (h : n.Settled) (hflags : n.Reflagged n') : n'.Settled := by
  obtain ⟨_, _, _, rfl⟩ := hflags
  exact fun i hi => h i ⟨hi.fresh, hi.own, hi.quorum⟩

/-- A leader has committed an index of its term that a quorum has matched. -/
theorem Node.Settled.committed (h : n.Settled) {i : Int} {entry : LogEntry} (hentry : n.entryAt i = some entry)
    (hterm : entry.term = n.currentTerm)
    (hquorum : n.quorumSize ≤ 1 + (n.peers.filter (fun p => n.matchIndex p ≥ i)).length) : i ≤ n.commitIndex := by
  by_contra hbehind
  exact h i ⟨by omega, ⟨entry, hentry, hterm⟩, hquorum⟩

/-- Committing the last committable index leaves none. -/
theorem Node.settled_of_last {i : Int} (hi : n.Committable i) (hlast : ∀ j, n.Committable j → j ≤ i) :
    ({ n with commitIndex := i } : Node).Settled := by
  intro j hj
  have hfresh : i < j := hj.fresh
  have := hi.fresh
  have := hlast j ⟨by omega, hj.own, hj.quorum⟩
  omega

/-- Advancing the commit index leaves nothing to commit. -/
theorem Node.ensures_settled {d : PersistentState} (hcommitted : n.snapshotIndex ≤ n.commitIndex) :
    n.advanceCommitIndex.Ensures False (fun _ => False)
      (fun r _ => ∃ commit, r.1 = { n with commitIndex := commit } ∧ r.1.Settled) d :=
  advanceCommitIndex_exact_rule (fun hlost => hlost.elim False.elim (Int.not_lt.mpr hcommitted))
    (fun hnone => ⟨n.commitIndex, rfl, hnone⟩)
    fun i hi hlast => ⟨False.elim, i, rfl, settled_of_last hi hlast⟩

/-- Recording progress within what is committed opens nothing to commit. -/
theorem Node.Settled.recordProgress (h : n.Settled) {matched : Int} (hmatched : matched ≤ n.commitIndex) :
    (n.recordProgress peer matched).Settled := by
  intro i hi
  have hfresh : n.commitIndex < i := hi.fresh
  have hsame : ∀ p, (n.recordProgress peer matched).matchIndex p ≥ i ↔ n.matchIndex p ≥ i := by
    intro p
    by_cases hp : p = peer
    · subst hp
      simp only [Node.recordProgress, Function.update_self]
      omega
    · simp only [Node.recordProgress, Function.update_of_ne hp]
  have hquorum := hi.quorum
  simp only [hsame] at hquorum
  exact h i ⟨hfresh, hi.own, hquorum⟩

end Committing

section Answers

variable {s : Pair} {req : AppendEntriesRequest} {resp : AppendEntriesResponse}

/-- The end of a call changes what is known about calls. -/
theorem Node.finishSend_flags (n : Node) (peer : String) : n.Reflagged (n.finishSend peer) ∧
    (n.finishSend peer).replicateInFlight = Function.update n.replicateInFlight peer false := by
  obtain ⟨notify, hfinish⟩ := n.finishSend_eq peer
  rw [hfinish]
  exact ⟨⟨_, _, _, rfl⟩, rfl⟩

/-- Signals and the end of a call change what is known about calls and who is to be woken. -/
theorem Node.exists_signalled (n : Node) (signals : Node.Signals) (peer : String) : ∃ apply pending notify,
    (if signals.replicate then (if signals.apply then n.notifyApply else n).signalReplicate
      else if signals.apply then n.notifyApply else n).finishSend peer =
    { n with
      applyNotify := apply
      replicateInFlight := Function.update n.replicateInFlight peer false
      replicatePending := pending
      replicateNotify := notify } := by
  obtain ⟨notify, hfinish⟩ := (if signals.replicate then (if signals.apply then n.notifyApply else n).signalReplicate
      else if signals.apply then n.notifyApply else n).finishSend_eq peer
  rw [hfinish]
  split <;> split <;> exact ⟨_, _, _, rfl⟩

/-- The leader processes a success: it records the progress and commits what it may. -/
theorem Pair.settle_accepted (hleads : s.leader.role = .leader) (hreq : req.term = s.leader.currentTerm)
    (hresp : resp.term = req.term) (hsuccess : resp.success = true)
    (hcommitted : s.leader.snapshotIndex ≤ s.leader.commitIndex) (peer : String) :
    ∃ leader disk, s.settle peer (.appended req resp) = some { s with leader := leader, leaderDisk := disk } ∧
      leader.Settled ∧ s.leader.SameOffice leader ∧
      leader.matchIndex = (s.leader.recordProgress peer (req.prevLogIndex + req.entries.length)).matchIndex ∧
      leader.replicateInFlight = Function.update s.leader.replicateInFlight peer false := by
  have hensures : (s.leader.handleAppendEntriesResponse peer req resp).Ensures False (fun _ => False)
      (fun r _ => ∃ commit, r.1 = { s.leader.recordProgress peer (req.prevLogIndex + req.entries.length) with
        commitIndex := commit } ∧ r.1.Settled) s.leaderDisk := by
    refine Node.handleAppendEntriesResponse_rule (fun hlt => by omega) (fun _ hstale => ?_)
      (fun _ _ _ hreject => ?_) fun _ _ _ _ => Node.ensures_settled hcommitted
    · exact hstale.elim (absurd hleads) (absurd hreq)
    · rw [hreject] at hsuccess
      cases hsuccess
  obtain ⟨⟨leader, signals⟩, disk, hvalue, commit, hleader, hsettled⟩ := hensures.value
  obtain rfl : leader = { s.leader.recordProgress peer (req.prevLogIndex + req.entries.length) with
    commitIndex := commit } := hleader
  obtain ⟨apply, pending, notify, hsignalled⟩ := Node.exists_signalled _ signals peer
  refine ⟨_, disk, by simp only [settle, hvalue]; rfl, ?_, ?_, ?_, ?_⟩ <;> rw [hsignalled]
  · exact fun i hi => hsettled i ⟨hi.fresh, hi.own, hi.quorum⟩
  · exact ⟨rfl, rfl, rfl, rfl, rfl, rfl⟩
  · rfl

end Answers

/-- One office after another. -/
theorem Node.SameOffice.trans {n'' : Node} (h : n.SameOffice n') (h' : n'.SameOffice n'') : n.SameOffice n'' where
  role := h'.role.trans h.role
  currentTerm := h'.currentTerm.trans h.currentTerm
  snapshotIndex := h'.snapshotIndex.trans h.snapshotIndex
  snapshotTerm := h'.snapshotTerm.trans h.snapshotTerm
  snapshot := h'.snapshot.trans h.snapshot
  log := h'.log.trans h.log

/-- What a leader knows about calls under way does not matter to its office. -/
theorem Node.Reflagged.sameOffice (h : n.Reflagged n') : n.SameOffice n' := by
  obtain ⟨_, _, _, rfl⟩ := h
  exact ⟨rfl, rfl, rfl, rfl, rfl, rfl⟩

/-- A leader between two rounds, with the office and the log of a given node and nothing left to commit, and the
members on its side in its term. -/
structure Cluster.Governs (m : Membership) (side : Finset String) (id : String) (office : Node) (c : Cluster) :
    Prop where
  presides : (c.servers id).Presiding []
  kept : office.SameOffice (c.servers id).node
  settled : (c.servers id).node.Settled
  terms : ∀ p ∈ m.ids, p ∈ side → (c.servers p).node.currentTerm = office.currentTerm

section Replication

variable {office : Node} (run : ClusterReachable m Undisturbed c) (hid : id ∈ m.ids) (hside : id ∈ side)
  (hpeer : peer ∈ m.ids) (hpeerSide : peer ∈ side) (hne : peer ≠ id) (hgoverns : c.Governs m side id office)
include run hid hside hpeer hpeerSide hne hgoverns

/-- What a round with one peer leaves behind. -/
theorem exists_governed {s s' : Pair} {ex : Exchange} (hask : (c.pair id peer).ask peer = some (s, ex))
    (hsettle : s.settle peer ex = some s') (hoffice : (c.servers id).node.SameOffice s'.leader)
    (hsettled : s'.leader.Settled)
    (hflags : s'.leader.replicateInFlight =
      Function.update (Function.update (c.servers id).node.replicateInFlight peer true) peer false)
    (hterm : s'.follower.currentTerm = office.currentTerm) :
    ∃ c', Continues m side c c' ∧ c'.Governs m side id office ∧
      (c'.servers id).node.nextIndex = s'.leader.nextIndex ∧
      (c'.servers id).node.matchIndex = s'.leader.matchIndex ∧ (c'.servers peer).node = s'.follower := by
  have hmember : peer ∈ (c.servers id).node.peers := by
    rw [((wired_of_reachable run).servers id hid).placed.peers]
    exact Membership.mem_peers.mpr ⟨hpeer, hne⟩
  have hidle : ∀ q, s'.leader.replicateInFlight q = false := by
    intro q
    rw [hflags]
    by_cases hq : q = peer
    · rw [hq, Function.update_self]
    · rw [Function.update_of_ne hq, Function.update_of_ne hq, hgoverns.presides.idle q]
  obtain ⟨c', hpath, hpresides, hreflagged, hfollower, hothers⟩ := exists_round run hid hside hgoverns.presides hmember
    hpeerSide hask hsettle (hoffice.role.trans hgoverns.presides.leads) hidle
  refine ⟨c', hpath, ⟨hpresides, (hgoverns.kept.trans hoffice).trans hreflagged.sameOffice,
    hsettled.reflagged hreflagged, fun p hp hpside => ?_⟩, ?_, ?_, hfollower⟩
  · by_cases hpid : p = id
    · rw [hpid, hreflagged.sameOffice.currentTerm, hoffice.currentTerm, hgoverns.kept.currentTerm]
    · by_cases hppeer : p = peer
      · rw [hppeer, hfollower, hterm]
      · rw [hothers p hpid hppeer]
        exact hgoverns.terms p hp hpside
  · obtain ⟨_, _, _, hleader⟩ := hreflagged
    rw [hleader]
  · obtain ⟨_, _, _, hleader⟩ := hreflagged
    rw [hleader]

/-- Behind its snapshot the leader sends entries, and the peer catches up, or the leader goes back, which it does
only from behind the peer's snapshot. -/
theorem exists_appendRound
    (hbehind : (c.servers id).node.snapshotIndex < (c.servers id).node.nextIndex peer) :
    ∃ c', Continues m side c c' ∧ c'.Governs m side id office ∧
      (∀ q, q ≠ peer → (c'.servers id).node.matchIndex q = (c.servers id).node.matchIndex q) ∧
      (office.lastLogIndex ≤ (c'.servers id).node.matchIndex peer ∨
        (c'.servers id).node.nextIndex peer < (c.servers id).node.nextIndex peer ∧
        (c.servers peer).node.snapshotIndex + 1 < (c.servers id).node.nextIndex peer) := by
  have hleads := hgoverns.presides.leads
  have hterm : (c.servers peer).node.currentTerm = (c.servers id).node.currentTerm := by
    rw [hgoverns.terms peer hpeer hpeerSide, hgoverns.kept.currentTerm]
  obtain ⟨l, haligned⟩ := aligned_of_undisturbed run hid hpeer hne hleads (hgoverns.presides.idle peer) hterm
  obtain ⟨k, hkeeps⟩ := haligned.keeps
  obtain ⟨kf, hfollows⟩ := haligned.follows
  obtain ⟨disk, follower, disk', req, resp, p, hask, hp, hbuilt, hreq, hresp, hfterm, hanswer⟩ :=
    haligned.ask_append hbehind
  have hfterm' : follower.currentTerm = office.currentTerm := by
    rw [hfterm, hreq]
    exact hgoverns.kept.currentTerm
  rcases hanswer with ⟨hsuccess, haccepts⟩ | ⟨hreject, hrejects⟩
  · obtain ⟨leader, d, hsettle, hsettled, hoffice, hmatch, hflags⟩ :=
      Pair.settle_accepted (s := ⟨(c.servers id).node.sending peer, disk, follower, disk'⟩) hleads hreq hresp hsuccess
        (equipped_of_undisturbed run hid hleads).committed peer
    obtain ⟨c', hpath, hgoverns', hnext', hmatch', hfollower'⟩ := exists_governed run hid hside hpeer hpeerSide hne
      hgoverns hask hsettle ⟨hoffice.role, hoffice.currentTerm, hoffice.snapshotIndex, hoffice.snapshotTerm,
        hoffice.snapshot, hoffice.log⟩ hsettled hflags hfterm'
    refine ⟨c', hpath, hgoverns', fun q hq => ?_, Or.inl ?_⟩
    · rw [hmatch', hmatch]
      exact Function.update_of_ne hq ..
    · have hend : req.prevLogIndex + req.entries.length = l.length := by
        have := hbuilt.position
        rw [hbuilt.prevLogIndex, hbuilt.entries, List.length_drop]
        omega
      have hlast : office.lastLogIndex = l.length := by
        rw [← hkeeps.lastLogIndex]
        exact (Node.lastLogIndex_congr hgoverns.kept.snapshotIndex hgoverns.kept.log).symm
      rw [hmatch', hmatch, hlast, ← hend]
      simp only [Node.recordProgress, Function.update_self]
      exact Int.le_max_right _ _
  · have hfar : (c.servers peer).node.snapshotIndex + 1 < (c.servers id).node.nextIndex peer := by
      by_contra hnear
      have hindex : (c.servers peer).node.snapshotIndex = kf := hfollows.covers.index
      have hnext : (c.servers id).node.nextIndex peer = p + 1 := hp
      exact hrejects.conflict (hfollows.covers.prevMatches hbuilt (by omega))
    obtain ⟨d, hsettle⟩ := Pair.settle_rejection (s := ⟨(c.servers id).node.sending peer, disk, follower, disk'⟩)
      hleads hreq hresp hreject peer
    obtain ⟨hreflagged, hflags⟩ :=
      (((c.servers id).node.sending peer).backedOff peer resp).signalReplicate.finishSend_flags peer
    have hsettled : (((c.servers id).node.sending peer).backedOff peer resp).signalReplicate.Settled :=
      fun i hi => hgoverns.settled i ⟨hi.fresh, hi.own, hi.quorum⟩
    obtain ⟨c', hpath, hgoverns', hnext', hmatch', hfollower'⟩ := exists_governed run hid hside hpeer hpeerSide hne
      hgoverns hask hsettle ((Node.sameOffice_backedOff _ resp).trans hreflagged.sameOffice)
      (hsettled.reflagged hreflagged) hflags hfterm'
    refine ⟨c', hpath, hgoverns', fun q _ => ?_, Or.inr ⟨?_, hfar⟩⟩
    · obtain ⟨_, _, _, hleader⟩ := hreflagged
      rw [hmatch', hleader]
      rfl
    · have hlow : 1 < (c.servers id).node.nextIndex peer := by
        have hindex : (c.servers peer).node.snapshotIndex = kf := hfollows.covers.index
        omega
      rw [hnext', Node.finishSend_nextIndex]
      exact Int.lt_of_le_of_lt (Int.le_of_eq (Function.update_self ..)) (Node.backOff_lt _ peer resp hlow)

/-- Up to its snapshot the leader sends the snapshot, and goes on right behind it. -/
theorem exists_installRound
    (hneed : (c.servers id).node.nextIndex peer ≤ (c.servers id).node.snapshotIndex) :
    ∃ c', Continues m side c c' ∧ c'.Governs m side id office ∧
      (∀ q, q ≠ peer → (c'.servers id).node.matchIndex q = (c.servers id).node.matchIndex q) ∧
      (c'.servers id).node.nextIndex peer = (c'.servers id).node.snapshotIndex + 1 ∧
      (c'.servers id).node.snapshotIndex ≤ (c'.servers peer).node.snapshotIndex := by
  have hleads := hgoverns.presides.leads
  have hterm : (c.servers peer).node.currentTerm = (c.servers id).node.currentTerm := by
    rw [hgoverns.terms peer hpeer hpeerSide, hgoverns.kept.currentTerm]
  obtain ⟨l, haligned⟩ := aligned_of_undisturbed run hid hpeer hne hleads (hgoverns.presides.idle peer) hterm
  obtain ⟨disk, follower, disk', req, resp, k, hask, hreq, hindex, hresp, hfterm, hfollows, hk⟩ :=
    haligned.ask_install hneed
  have hindex' : req.lastIncludedIndex = (c.servers id).node.snapshotIndex := hindex
  have hcommitted := (equipped_of_undisturbed run hid hleads).committed
  obtain ⟨d, hsettle⟩ := Pair.settle_install (s := ⟨(c.servers id).node.sending peer, disk, follower, disk'⟩)
    hleads hreq hresp peer
  obtain ⟨hreflagged, hflags⟩ := (((c.servers id).node.sending peer).recordProgress peer
    req.lastIncludedIndex).signalReplicate.finishSend_flags peer
  have hsettled : (((c.servers id).node.sending peer).recordProgress peer
      req.lastIncludedIndex).signalReplicate.Settled := by
    have hrecorded : ((c.servers id).node.recordProgress peer req.lastIncludedIndex).Settled :=
      hgoverns.settled.recordProgress (hindex' ▸ hcommitted)
    exact fun i hi => hrecorded i ⟨hi.fresh, hi.own, hi.quorum⟩
  have hfterm' : follower.currentTerm = office.currentTerm := by
    rw [hfterm, hreq]
    exact hgoverns.kept.currentTerm
  obtain ⟨c', hpath, hgoverns', hnext', hmatch', hfollower'⟩ := exists_governed run hid hside hpeer hpeerSide hne
    hgoverns hask hsettle ((Node.sameOffice_recordProgress _ _).trans hreflagged.sameOffice)
    (hsettled.reflagged hreflagged) hflags hfterm'
  have hsnapshot : (c'.servers id).node.snapshotIndex = (c.servers id).node.snapshotIndex := by
    rw [hgoverns'.kept.snapshotIndex, hgoverns.kept.snapshotIndex]
  refine ⟨c', hpath, hgoverns', fun q hq => ?_, ?_, ?_⟩
  · obtain ⟨_, _, _, hleader⟩ := hreflagged
    rw [hmatch', hleader]
    exact Function.update_of_ne hq ..
  · rw [hnext', Node.finishSend_nextIndex, hsnapshot]
    change Function.update (c.servers id).node.nextIndex peer
      (max ((c.servers id).node.nextIndex peer) (req.lastIncludedIndex + 1)) peer = _
    rw [Function.update_self, hindex']
    omega
  · rw [hsnapshot, hfollower', hfollows.covers.index]
    exact hk

end Replication

section Majority

variable {office : Node} (hid : id ∈ m.ids) (hside : id ∈ side)
include hid hside

/-- The leader can bring a peer up to date. -/
theorem exists_caughtUp (run : ClusterReachable m Undisturbed c) (hpeer : peer ∈ m.ids) (hpeerSide : peer ∈ side)
    (hne : peer ≠ id) (hgoverns : c.Governs m side id office) :
    ∃ c', Continues m side c c' ∧ c'.Governs m side id office ∧
      (∀ q, q ≠ peer → (c'.servers id).node.matchIndex q = (c.servers id).node.matchIndex q) ∧
      office.lastLogIndex ≤ (c'.servers id).node.matchIndex peer := by
  obtain ⟨bound, hbound⟩ : ∃ bound : ℕ, (c.servers id).node.nextIndex peer ≤ bound :=
    ⟨((c.servers id).node.nextIndex peer).toNat, by omega⟩
  induction bound generalizing c with
  | zero =>
    have hequipped := equipped_of_undisturbed run hid hgoverns.presides.leads
    have hmember : peer ∈ (c.servers id).node.peers := by
      rw [((wired_of_reachable run).servers id hid).placed.peers]
      exact Membership.mem_peers.mpr ⟨hpeer, hne⟩
    have := hequipped.low peer hmember
    omega
  | succ bound ih =>
    rcases Int.lt_or_le (c.servers id).node.snapshotIndex ((c.servers id).node.nextIndex peer) with hbehind | hneed
    · obtain ⟨c₁, hpath₁, hgoverns₁, hmatch₁, hdone | ⟨hback, _⟩⟩ :=
        exists_appendRound run hid hside hpeer hpeerSide hne hgoverns hbehind
      · exact ⟨c₁, hpath₁, hgoverns₁, hmatch₁, hdone⟩
      · obtain ⟨c₂, hpath₂, hgoverns₂, hmatch₂, hdone⟩ := ih (Continues.reachable hpath₁ run) hgoverns₁ (by omega)
        exact ⟨c₂, hpath₁.trans hpath₂, hgoverns₂, fun q hq => (hmatch₂ q hq).trans (hmatch₁ q hq), hdone⟩
    · -- right behind the snapshot the peer cannot refuse
      obtain ⟨c₁, hpath₁, hgoverns₁, hmatch₁, hnext, hcovered⟩ :=
        exists_installRound run hid hside hpeer hpeerSide hne hgoverns hneed
      obtain ⟨c₂, hpath₂, hgoverns₂, hmatch₂, hdone | ⟨_, hfar⟩⟩ :=
        exists_appendRound (Continues.reachable hpath₁ run) hid hside hpeer hpeerSide hne hgoverns₁ (by omega)
      · exact ⟨c₂, hpath₁.trans hpath₂, hgoverns₂, fun q hq => (hmatch₂ q hq).trans (hmatch₁ q hq), hdone⟩
      · omega

/-- The leader can bring several peers up to date. -/
theorem exists_allCaughtUp (run : ClusterReachable m Undisturbed c) {peers : List String}
    (hpeers : ∀ p ∈ peers, p ∈ m.ids ∧ p ≠ id ∧ p ∈ side) (hgoverns : c.Governs m side id office) :
    ∃ c', Continues m side c c' ∧ c'.Governs m side id office ∧
      ∀ p ∈ peers, office.lastLogIndex ≤ (c'.servers id).node.matchIndex p := by
  induction peers with
  | nil => exact ⟨c, .refl, hgoverns, fun p hp => absurd hp List.not_mem_nil⟩
  | cons p rest ih =>
    obtain ⟨c₁, hpath₁, hgoverns₁, hmatched⟩ := ih fun q hq => hpeers q (List.mem_cons_of_mem p hq)
    obtain ⟨hp, hne, hpside⟩ := hpeers p List.mem_cons_self
    obtain ⟨c₂, hpath₂, hgoverns₂, hsame, hdone⟩ :=
      exists_caughtUp hid hside (Continues.reachable hpath₁ run) hp hpside hne hgoverns₁
    refine ⟨c₂, hpath₁.trans hpath₂, hgoverns₂, fun q hq => ?_⟩
    by_cases hqp : q = p
    · rw [hqp]
      exact hdone
    · rw [hsame q hqp]
      exact hmatched q ((List.mem_cons.mp hq).resolve_left hqp)

end Majority

/-- A leader accepts a command at the end of its log and commits what it may. -/
theorem Node.ensures_accepted {d : PersistentState} (hleads : n.role = .leader) (hhealthy : n.degraded = false)
    (hcommitted : n.snapshotIndex ≤ n.commitIndex) (cmd : Bytes) :
    (n.startCommand cmd).Ensures False (fun _ => False) (fun r _ => r.2 = some (n.lastLogIndex + 1) ∧ r.1.Settled ∧
      ∃ commit apply, r.1 = { n.appended cmd with commitIndex := commit, applyNotify := apply, replicateNotify := true })
      d := by
  refine startCommand_rule (fun hrefused => ?_) (fun _ _ => False.elim) fun _ _ => ?_
  · rw [hhealthy] at hrefused
    exact (hrefused.resolve_left Bool.false_ne_true hleads).elim
  · refine (ensures_settled (n := n.appended cmd) hcommitted).mono (fun _ h => h) ?_
    rintro ⟨moved, advanced⟩ d' ⟨commit, hmoved, hsettled⟩
    obtain rfl : moved = { n.appended cmd with commitIndex := commit } := hmoved
    refine ⟨rfl, fun i hi => hsettled i ?_, commit, ?_⟩
    · cases advanced <;> exact ⟨hi.fresh, hi.own, hi.quorum⟩
    · cases advanced <;> exact ⟨_, rfl⟩

/-- The command is at the end of the leader's log. -/
theorem Node.appended_last (n : Node) (cmd : Bytes) : (n.appended cmd).lastLogIndex = n.lastLogIndex + 1 ∧
    (n.appended cmd).entryAt (n.lastLogIndex + 1) = some (n.newEntry cmd) := by
  constructor
  · simp only [Node.lastLogIndex, Node.appended, List.length_append, List.length_singleton]
    omega
  · have hnew := n.entryAt_extended_new [n.newEntry cmd] 0
    rw [Int.natCast_zero, Int.add_zero] at hnew
    exact (Node.entryAt_congr rfl rfl _).trans hnew

/-- A member has accepted a command at an index after an earlier state. -/
def Cluster.AcceptedSince (earlier c : Cluster) (id : String) (cmd : Bytes) (index : Int) : Prop :=
  ∃ later, c.trace = later ++ earlier.trace ∧
    ∃ tr ∈ later, tr.id = id ∧ tr.input = .startCommand cmd ∧ tr.effects.accepted = some index

/-- What has been accepted is on record as the cluster goes on. -/
theorem Cluster.AcceptedSince.path {earlier : Cluster} {cmd : Bytes} {index : Int}
    (h : earlier.AcceptedSince c id cmd index) (path : Continues m side c c') :
    earlier.AcceptedSince c' id cmd index := by
  obtain ⟨later, htrace, tr, htr, haccepted⟩ := h
  obtain ⟨more, hmore⟩ := (Continues.grows path).trace
  refine ⟨more ++ later, ?_, tr, List.mem_append_right _ htr, haccepted⟩
  rw [← hmore, htrace, List.append_assoc]

/-- A leader between two rounds can accept a command. -/
theorem exists_proposed (run : ClusterReachable m Undisturbed c) (hid : id ∈ m.ids) (hside : id ∈ side)
    (hpresides : (c.servers id).Presiding []) (cmd : Bytes)
    (hterms : ∀ p ∈ m.ids, p ∈ side → (c.servers p).node.currentTerm = (c.servers id).node.currentTerm) :
    ∃ c', Continues m side c c' ∧ c'.Governs m side id ((c.servers id).node.appended cmd) ∧
      c.AcceptedSince c' id cmd ((c.servers id).node.lastLogIndex + 1) := by
  obtain ⟨a, _, hrefines⟩ := logRefines_of_undisturbed run
  have hensures := @Node.ensures_accepted _ (c.servers id).disk hpresides.leads
    (hrefines.servers id hid).log.ballots.healthy (equipped_of_undisturbed run hid hpresides.leads).committed cmd
  obtain ⟨⟨node, index⟩, d, hvalue, hindex, hsettled, commit, apply, hnode⟩ := hensures.value
  obtain rfl : index = some ((c.servers id).node.lastLogIndex + 1) := hindex
  have hstep : (c.servers id).step c.calls.length [] (.startCommand cmd) =
      some ({ (c.servers id) with node := node, disk := d },
        { accepted := some ((c.servers id).node.lastLogIndex + 1) }) :=
    congrArg some (Server.perform_of_value hvalue rfl)
  have hpath := SoloPath.act (m := m) hid hside rfl rfl hstep
  refine ⟨_, hpath.path, ⟨?_, ?_, ?_, fun p hp hpside => ?_⟩, [_], rfl, _, List.mem_cons_self, rfl, rfl, rfl⟩
  · rw [Cluster.record_servers_self]
    obtain rfl : node = _ := hnode
    exact ⟨hpresides.leads, hpresides.main, hpresides.quiet, hpresides.idle⟩
  · rw [Cluster.record_servers_self]
    obtain rfl : node = _ := hnode
    exact ⟨rfl, rfl, rfl, rfl, rfl, rfl⟩
  · rw [Cluster.record_servers_self]
    exact hsettled
  · by_cases hpid : p = id
    · rw [hpid, Cluster.record_servers_self]
      obtain rfl : node = _ := hnode
      rfl
    · rw [hpath.others p hpid]
      exact hterms p hp hpside

/-- A peer has what its leader takes it to have, unless its snapshot hides it. -/
theorem holds_of_matched (run : ClusterReachable m Undisturbed c) (hid : id ∈ m.ids) (hpeer : peer ∈ m.ids)
    (hne : peer ≠ id) (hleads : (c.servers id).node.role = .leader)
    (hterm : (c.servers peer).node.currentTerm = (c.servers id).node.currentTerm) {i : Int} {entry : LogEntry}
    (hentry : (c.servers id).node.entryAt i = some entry) (hmatched : i ≤ (c.servers id).node.matchIndex peer) :
    i ≤ (c.servers peer).node.snapshotIndex ∨ (c.servers peer).node.entryAt i = some entry := by
  obtain ⟨a, hrun, hrefines, hsound⟩ := progressSound_of_undisturbed run
  have hinv := logInvariant_of_reachable hrun
  have hlog := (hrefines.servers id hid).log
  have hlog' := (hrefines.servers peer hpeer).log
  obtain ⟨j, whole, rfl, _, hwhole, rfl⟩ := hlog.logs.window.of_entryAt hentry
  have hsame : a.term peer = a.term id := by
    have := hlog.ballots.term
    have := hlog'.ballots.term
    omega
  rcases (hsound.leaders id hid hleads peer hpeer hne).confirmed with hzero | ⟨_, hconcurs⟩
  · omega
  · have hindex := hlog'.logs.window.index
    by_cases hlow : a.snap peer ≤ j
    · right
      rw [hlog'.logs.window.entryAt hlow, hconcurs.agree hsame j (by omega),
        ← hinv.office_log id (hlog.leader hleads).standing, hwhole]
      rfl
    · left
      omega

/-- **A majority can always commit.** From every state that undisturbed runs reach, whatever was lost, delayed and
interrupted on the way there, and for every majority of the members of a cluster of two or more: these members alone
can go on, with a restart of one of them, so that it comes into office, accepts any given command and commits it, and
then all of them have the command at its index, unless their snapshots cover it. -/
theorem majority_can_commit (run : ClusterReachable m Undisturbed c) (hmembers : 1 < m.ids.length)
    (hmajority : m.ids.length / 2 < (m.ids.filter (· ∈ side)).length) (cmd : Bytes) :
    ∃ id ∈ m.ids, id ∈ side ∧ ∃ c' index, Continues m side c c' ∧ c.AcceptedSince c' id cmd index ∧
      (c'.servers id).node.role = .leader ∧ index ≤ (c'.servers id).node.commitIndex ∧
      ∀ p ∈ m.ids, p ∈ side → index ≤ (c'.servers p).node.snapshotIndex ∨
        ∃ entry, (c'.servers p).node.entryAt index = some entry ∧ entry.command = cmd := by
  obtain ⟨id, hid, hside, c₁, hpath₁, hpresides, hterms⟩ := exists_leader run hmembers hmajority
  have run₁ := Continues.reachable hpath₁ run
  obtain ⟨c₂, hpath₂, hgoverns₂, haccepted⟩ :=
    exists_proposed run₁ hid hside hpresides cmd fun p hp hpside => (hterms p hp hpside).1
  obtain ⟨hlast, hentry⟩ := (c₁.servers id).node.appended_last cmd
  have hpeers : ∀ p, p ∈ (normalizePeers id m.ids).filter (· ∈ side) ↔ p ∈ m.ids ∧ p ≠ id ∧ p ∈ side := by
    intro p
    rw [List.mem_filter, Membership.mem_peers, decide_eq_true_eq, and_assoc]
  obtain ⟨c₃, hpath₃, hgoverns₃, hmatched⟩ := exists_allCaughtUp hid hside (Continues.reachable hpath₂ run₁)
    (fun p hp => (hpeers p).mp hp) hgoverns₂
  rw [hlast] at hmatched
  have hpath := hpath₂.trans hpath₃
  have run₃ := Continues.reachable hpath run₁
  have hleads := hgoverns₃.presides.leads
  rw [← Node.entryAt_congr hgoverns₃.kept.snapshotIndex hgoverns₃.kept.log] at hentry
  refine ⟨id, hid, hside, c₃, (c₁.servers id).node.lastLogIndex + 1, hpath₁.trans hpath, ?_, hleads, ?_,
    fun p hp hpside => ?_⟩
  · obtain ⟨earlier, hearlier⟩ := (Continues.grows hpath₁).trace
    obtain ⟨later, htrace, tr, htr, haccepted⟩ := haccepted.path hpath₃
    refine ⟨later ++ earlier, ?_, tr, List.mem_append_left _ htr, haccepted⟩
    rw [htrace, ← hearlier, List.append_assoc]
  · refine hgoverns₃.settled.committed hentry hgoverns₃.kept.currentTerm.symm ?_
    have hplaced := ((wired_of_reachable run₃).servers id hid).placed
    have hlength : ((normalizePeers id m.ids).filter (· ∈ side)).length + 1 = (m.ids.filter (· ∈ side)).length :=
      Membership.length_peers_filter hid (decide_eq_true hside)
    have hcount : ((normalizePeers id m.ids).filter (· ∈ side)).length ≤ ((normalizePeers id m.ids).filter
        (fun p => (c₃.servers id).node.matchIndex p ≥ (c₁.servers id).node.lastLogIndex + 1)).length := by
      rw [← List.countP_eq_length_filter, ← List.countP_eq_length_filter]
      refine List.countP_mono_left fun p hp hpside => decide_eq_true ?_
      exact hmatched p (List.mem_filter.mpr ⟨hp, hpside⟩)
    rw [Node.quorumSize, hplaced.config, hplaced.peers]
    omega
  · by_cases hpid : p = id
    · rw [hpid]
      exact Or.inr ⟨_, hentry, rfl⟩
    · have hterm : (c₃.servers p).node.currentTerm = (c₃.servers id).node.currentTerm := by
        rw [hgoverns₃.terms p hp hpside, hgoverns₃.terms id hid hside]
      refine (holds_of_matched run₃ hid hp hpid hleads hterm hentry ?_).imp_right fun hheld => ⟨_, hheld, rfl⟩
      exact hmatched p ((hpeers p).mpr ⟨hp, hpid, hpside⟩)

/-- Leader `a` of three is gone with a command that it has told nobody about; `b` and `c` go on without it. -/
theorem majority_can_commit_without_leader :
    ∃ c, ClusterReachable threeNodes Undisturbed c ∧ (c.servers "a").node.role = .leader ∧
      (c.servers "a").node.log.map LogEntry.command = [[7]] ∧
      ∃ id ∈ threeNodes.ids, id ∈ ({"b", "c"} : Finset String) ∧ ∃ c' index, Continues threeNodes {"b", "c"} c c' ∧
        c.AcceptedSince c' id [8] index ∧ (c'.servers id).node.role = .leader ∧
        index ≤ (c'.servers id).node.commitIndex ∧
        ∀ p ∈ threeNodes.ids, p ∈ ({"b", "c"} : Finset String) → index ≤ (c'.servers p).node.snapshotIndex ∨
          ∃ entry, (c'.servers p).node.entryAt index = some entry ∧ entry.command = [8] := by
  have hrun : ((Cluster.first threeNodes.ids).run threeNodes Undisturbed
      (electionOf "a" 0 1 ++ [.act "a" (.startCommand [7]) []])).map
      (fun c => ((c.servers "a").node.role, (c.servers "a").node.log.map LogEntry.command)) =
      some (.leader, [[7]]) := by
    decide +kernel
  obtain ⟨c, run, hfacts⟩ := exists_reachable_of_run hrun
  obtain ⟨hleads, hlog⟩ := Prod.mk.inj hfacts
  exact ⟨c, run, hleads, hlog, majority_can_commit run (by decide) (by decide) [8]⟩

end ConsensusLab.Raft
