import ConsensusLab.Raft.LogMirror

/-!
# Elections, leadership, compaction and restarts as steps of the replicated log

A candidate's poll records the log that its vote requests report. A leader's bookkeeping
lags behind what its followers have confirmed, so whatever it commits has been confirmed
by a quorum. Compaction hides what has been applied, and a restart forgets at most how
far the node had committed.
-/

namespace ConsensusLab.Raft

open Foundation

variable {m : Membership} {may : RaftLog → String → ℕ → Prop} {a a' : RaftLog} {id : String}
  {n n' : Node} {d d' : PersistentState} {lost : PersistentState → Prop}

/-- What opening a poll leaves behind: a request that reports the node's log. -/
def Opened (m : Membership) (may : RaftLog → String → ℕ → Prop) (a : RaftLog) (id : String) (n : Node)
    (r : Node × Option RequestVoteRequest) (d' : PersistentState) : Prop :=
  ∃ a' req, r.2 = some req ∧ LogRun m may id a a' ∧ LogMirror a' id r.1 d' ∧
    CallBacked a' id (.vote req) ∧ req.term = r.1.currentTerm ∧ r.1.role = n.role ∧
    r.1.history = n.history ∧ (n.role = .candidate → a'.standing id = .candidate)

/-- Starting an election opens a poll with the node's log. -/
theorem LogMirror.startElection (hinv : LogInvariant m.quorums a) (h : LogMirror a id n d)
    (hid : n.id = id) (hname : id ≠ "") (hrole : n.role ≠ .leader) :
    n.startElection.Ensures False lost (Opened m may a id n) d := by
  refine Node.startElection_rule nofun ?_
  have hterm := h.ballots.term
  have hcur : n.standing.currentTerm = ((a.term id + 1 : ℕ) : Int) := by
    change n.currentTerm + 1 = _
    omega
  have hnext : (if n.role = .candidate then Standing.candidate else .follower) ≠ .leader := by
    split <;> nofun
  refine ⟨_, _, rfl, .single hinv (.poll a id (a.term id + 1) _ (Nat.lt_succ_self _) hnext) (fun w hw => ?_)
    (le_refl _), ⟨.of_term (Function.update_self ..) ?_ hcur h.ballots.healthy, h.logs.keep rfl rfl rfl rfl,
    fun hl => absurd hl hrole, h.disk.save rfl ⟨rfl, rfl, rfl⟩ ⟨rfl, rfl, rfl⟩⟩,
    ⟨a.term id + 1, a.log id, hcur, setAt_self .., h.logs.window.lastLogIndex, h.logs.window.lastLogTerm⟩,
    rfl, rfl, rfl, fun hc => ?_⟩
  · have hcol : ∀ u, setAt a.ballot (a.term id + 1) id (some id) u w = a.ballot u w :=
      fun u => setAt_of_ne _ _ fun hand => hw hand.2
    simp only [logView, Function.update_of_ne hw, hcol]
  · refine (setAt_self ..).trans ?_
    change some id = ballotOf n.id
    rw [hid, ballotOf, if_neg hname]
  · refine (Function.update_self ..).trans ?_
    rw [if_pos hc]

/-- Stepping down in a later term. -/
theorem LogMirror.stepDown (hinv : LogInvariant m.quorums a) (h : LogMirror a id n d) {term : Int}
    (hterm : n.currentTerm < term) :
    (n.stepDown term).Ensures False lost (fun n' d' => Steered m may a id n n' d') d := by
  refine Node.stepDown_rule nofun ?_
  obtain ⟨a', hrun, hmirror⟩ : ∃ a', LogRun m may id a a' ∧
      LogMirror a' id (n.retired term) { d with hard := (n.retired term).hardState } :=
    h.observe hinv hterm rfl rfl rfl nofun ⟨rfl, rfl, rfl⟩ ⟨rfl, rfl, rfl⟩
  exact ⟨a', hrun, hmirror, Or.inl rfl, Int.le_refl _, nofun⟩

/-- Winning an election. -/
theorem LogMirror.win (hinv : LogInvariant m.quorums a) (h : LogMirror a id n d) {Q : Finset String}
    (hstanding : a.standing id = .candidate) (hQ : m.quorums.IsQuorum Q)
    (hvotes : ∀ v ∈ Q, a.ballot (a.term id) v = some id) :
    ∃ a', LogRun m may id a a' ∧ LogMirror a' id n.becomeLeader d := by
  refine ⟨_, .single hinv (.win a id Q hstanding hQ hvotes) (fun w hw => ?_) (le_refl _),
    ⟨h.ballots.term, h.ballots.vote, h.ballots.healthy⟩, h.logs.keep rfl rfl rfl rfl,
    fun _ => ⟨Function.update_self .., le_of_eq (setAt_self ..).symm, fun p hp => Or.inr fun k hk => ?_,
      fun p hp => ?_⟩, h.disk.keep rfl rfl rfl⟩
  · simp only [logView, Function.update_of_ne hw]
  · have hzero : n.becomeLeader.matchIndex p = 0 := if_pos (Or.inr hp)
    omega
  · exact le_of_eq (if_pos (Or.inr hp))

/-- The members that a leader counts for a committable index form a quorum that has confirmed it. -/
theorem Node.Committable.quorum_acked (hinv : LogInvariant m.quorums a) (h : LogMirror a id n d)
    (hplaced : Placed m id n d) (hid : id ∈ m.ids) (hrole : n.role = .leader) {j : ℕ}
    (hc : n.Committable (j + 1)) (hstamp : termAt (a.log id) j = some (a.term id)) :
    ∃ Q, m.quorums.IsQuorum Q ∧ ∀ v ∈ Q, j < a.acked (a.term id) v := by
  have hp := h.leader hrole
  have hcommit := h.logs.commit
  have hfresh := hc.fresh
  have hpeers : ∀ v ∈ n.peers.filter (fun p => n.matchIndex p ≥ j + 1), v ∈ m.ids ∧ v ≠ id := by
    intro v hv
    have hmem := List.mem_of_mem_filter hv
    rw [hplaced.peers] at hmem
    exact Membership.mem_peers.mp hmem
  refine ⟨(id :: n.peers.filter fun p => n.matchIndex p ≥ j + 1).toFinset,
    strictMajority_of_list m.nodup ?_ ?_ ?_, fun v hv => ?_⟩
  · refine List.nodup_cons.mpr ⟨fun hin => (hpeers id hin).2 rfl, ?_⟩
    rw [hplaced.peers]
    exact (m.peers_nodup id).filter _
  · intro v hv
    rcases List.mem_cons.mp hv with rfl | hv
    · exact hid
    · exact (hpeers v hv).1
  · have hcount := hc.quorum
    rw [Node.quorumSize, hplaced.config] at hcount
    rw [List.length_cons]
    omega
  · rcases List.mem_cons.mp (List.mem_toFinset.mp hv) with rfl | hv
    · exact (lt_length_of_termAt hstamp).trans_le hp.own
    · obtain ⟨hpeer, hmatched⟩ := List.mem_filter.mp hv
      have hge : (j : Int) + 1 ≤ n.matchIndex v := of_decide_eq_true hmatched
      rcases hp.matched v hpeer with hacked | hold
      · omega
      -- an index that only looks matched is committed already or of an earlier term
      · rcases hold j (by omega) with hlt | ⟨u, hu, hterm⟩
        · rw [← hinv.office_commit id hp.standing] at hlt
          omega
        · rw [← hinv.office_log id hp.standing, hstamp] at hterm
          have := Option.some.inj hterm
          omega

/-- Advancing the commit index is one step. -/
theorem LogMirror.advanceCommitIndex (hinv : LogInvariant m.quorums a) (h : LogMirror a id n d)
    (hplaced : Placed m id n d) (hid : id ∈ m.ids) (hrole : n.role = .leader) :
    n.advanceCommitIndex.Ensures False lost (fun r d' => Steered m may a id n r.1 d') d := by
  have hp := h.leader hrole
  have hled := hp.led hinv
  have hcommit := h.logs.commit
  refine Node.advanceCommitIndex_rule (fun hor => ?_) h.unchanged fun i hi => ⟨nofun, ?_⟩
  · have hsnap := hinv.snap_le id
    have hindex := h.logs.window.index
    rcases hor with hf | hlt
    · exact hf.elim
    · omega
  obtain ⟨entry, hentry, hterm⟩ := hi.own
  obtain ⟨j, whole, rfl, hsnap, hwhole, rfl⟩ := h.logs.window.of_entryAt hentry
  have hstamp : termAt (a.log id) j = some (a.term id) := by
    have hsame : ((whole.term : ℕ) : Int) = a.term id := hterm.trans h.ballots.term
    rw [termAt, hwhole, Option.map_some]
    exact congrArg some (Int.ofNat_inj.mp hsame)
  obtain ⟨Q, hQ, hacked⟩ := hi.quorum_acked hinv h hplaced hid hrole hstamp
  have hfresh := hi.fresh
  have hstep : LogStep m.quorums may a _ :=
    .advance a id j Q hp.standing (by omega) hstamp hQ hacked
  have hraise : a.commit id ≤ Function.update a.commit id (j + 1) id := by
    rw [Function.update_self]
    omega
  refine ⟨_, .single hinv hstep (fun w hw => ?_) hraise,
    ⟨⟨h.ballots.term, h.ballots.vote, h.ballots.healthy⟩, Logs.of_window rfl rfl (Function.update_self ..)
      (h.logs.window.keep rfl rfl rfl) rfl h.logs.snapshot h.logs.held ?_ h.logs.pending,
      fun _ => ⟨hp.standing, hp.own, fun p hpeer => (hp.matched p hpeer).mono hled (hstep.grows hinv), hp.next⟩,
      ⟨rfl, rfl, h.disk.base, h.disk.log, h.disk.snapshot, fun _ => rfl⟩⟩,
    Or.inr ⟨rfl, rfl, rfl⟩, Int.le_refl _, fun _ _ => Or.inl ⟨rfl, ?_⟩⟩
  · simp only [logView, Function.update_of_ne hw]
  · have happlied := h.logs.applied
    change n.lastApplied ≤ (j : Int) + 1
    omega
  · change Function.update a.commit id (j + 1) id - 1 = j
    rw [Function.update_self]
    omega

/-- Recording a peer's progress. -/
theorem LogMirror.recordProgress (h : LogMirror a id n d) (hrole : n.role = .leader) {peer : String}
    {matched : Int} (hmatch : Matching a (a.term id) peer matched) (hbound : matched ≤ n.lastLogIndex) :
    LogMirror a id (n.recordProgress peer matched) d := by
  have hp := h.leader hrole
  refine ⟨⟨h.ballots.term, h.ballots.vote, h.ballots.healthy⟩, h.logs.keep rfl rfl rfl rfl,
    fun _ => ⟨hp.standing, hp.own, fun p hpeer => ?_, fun p hpeer => ?_⟩, h.disk.keep rfl rfl rfl⟩
  · change Matching a (a.term id) p (Function.update n.matchIndex peer (max (n.matchIndex peer) matched) p)
    by_cases hp' : p = peer
    · subst hp'
      rw [Function.update_self]
      rcases Int.le_total (n.matchIndex p) matched with hle | hle
      · rwa [max_eq_right hle]
      · rw [max_eq_left hle]
        exact hp.matched p hpeer
    · rw [Function.update_of_ne hp']
      exact hp.matched p hpeer
  · change Function.update n.nextIndex peer (max (n.nextIndex peer) (matched + 1)) p ≤ n.lastLogIndex + 1
    have hnext := hp.next p hpeer
    by_cases hp' : p = peer
    · subst hp'
      rw [Function.update_self]
      omega
    · rwa [Function.update_of_ne hp']

/-- No term occurs behind the log. -/
theorem Node.lastIndexOfTerm_le (n : Node) (term : Int) (hlast : 0 ≤ n.lastLogIndex) :
    n.lastIndexOfTerm term ≤ n.lastLogIndex := by
  unfold Node.lastIndexOfTerm
  split
  · exact hlast
  · rw [Node.lastLogIndex]
    omega

/-- Backing off does not lead behind the log. -/
theorem Node.backOff_le {peer : String} {resp : AppendEntriesResponse} (hlast : 0 ≤ n.lastLogIndex)
    (hnext : n.nextIndex peer ≤ n.lastLogIndex + 1) (hconflict : resp.conflictIndex ≤ n.lastLogIndex + 1) :
    n.backOff peer resp ≤ n.lastLogIndex + 1 := by
  have hterm := n.lastIndexOfTerm_le resp.conflictTerm hlast
  unfold Node.backOff
  dsimp only
  split_ifs <;> omega

/-- Backing off after a rejection. -/
theorem LogMirror.backedOff (h : LogMirror a id n d) (hrole : n.role = .leader) {peer : String}
    {resp : AppendEntriesResponse} (hconflict : resp.conflictIndex ≤ n.lastLogIndex + 1) :
    LogMirror a id (n.backedOff peer resp) d := by
  have hp := h.leader hrole
  refine ⟨⟨h.ballots.term, h.ballots.vote, h.ballots.healthy⟩, h.logs.keep rfl rfl rfl rfl,
    fun _ => ⟨hp.standing, hp.own, hp.matched, fun p hpeer => ?_⟩, h.disk.keep rfl rfl rfl⟩
  change Function.update n.nextIndex peer (n.backOff peer resp) p ≤ n.lastLogIndex + 1
  have hnext := hp.next p hpeer
  have hlast := h.logs.window.lastLogIndex
  by_cases hp' : p = peer
  · subst hp'
    rw [Function.update_self]
    exact Node.backOff_le (by omega) hnext hconflict
  · rwa [Function.update_of_ne hp']

/-- Processing an AppendEntries response. -/
theorem LogMirror.handleAppendEntriesResponse (hinv : LogInvariant m.quorums a) (h : LogMirror a id n d)
    (hplaced : Placed m id n d) (hid : id ∈ m.ids) {peer : String} {req : AppendEntriesRequest}
    {resp : AppendEntriesResponse} (hcall : CallBacked a id (.append req))
    (hreply : ReplyBacked a peer (.append req) (.append resp)) :
    (n.handleAppendEntriesResponse peer req resp).Ensures False lost
      (fun r d' => Steered m may a id n r.1 d') d := by
  obtain ⟨t, p, q, k, hback⟩ := hcall
  -- what the request was built from is still there in its own term
  have hcurrent : n.role = .leader → req.term = n.currentTerm →
      t = a.term id ∧ (q : Int) ≤ n.lastLogIndex := by
    intro hrole hterm
    have hself : t = a.term id := by
      have := hback.term
      have := h.ballots.term
      omega
    have hlen := hback.within.2
    rw [hself, ← hinv.office_log id (h.leader hrole).standing] at hlen
    rw [h.logs.window.lastLogIndex]
    exact ⟨hself, by omega⟩
  refine Node.handleAppendEntriesResponse_rule (fun hlater => h.stepDown hinv hlater)
    (fun _ _ => h.unchanged) (fun _ hrole hterm hfail => ?_) (fun _ hrole hterm hsuccess => ?_)
  · obtain ⟨_, hlast⟩ := hcurrent hrole hterm
    have hindex := hreply.2 hfail
    rw [hback.prev] at hindex
    have hpq := hback.within.1
    refine ⟨a, .refl a, h.backedOff hrole (by omega), Or.inr ⟨rfl, rfl, rfl⟩, Int.le_refl _, fun _ hlt => ?_⟩
    exact absurd hlt (Int.lt_irrefl _)
  · obtain ⟨hself, hlast⟩ := hcurrent hrole hterm
    obtain ⟨u, hu, hmatch⟩ := hreply.1 hsuccess
    have hut : u = a.term id := by
      have := hback.term
      omega
    have hend : req.prevLogIndex + (req.entries.length : Int) = q := by
      have := hback.within.1
      rw [hback.prev, hback.entries, List.length_map, List.length_drop,
        List.length_take_of_le hback.within.2]
      omega
    rw [hut, hend] at hmatch
    rw [hend]
    have hprogress := h.recordProgress hrole hmatch hlast
    exact hprogress.advanceCommitIndex hinv (hplaced.keep rfl rfl rfl rfl) hid hrole

/-- Processing an InstallSnapshot response. -/
theorem LogMirror.handleInstallSnapshotResponse (hinv : LogInvariant m.quorums a) (h : LogMirror a id n d)
    {peer : String} {req : InstallSnapshotRequest} {resp : InstallSnapshotResponse}
    (hcall : CallBacked a id (.install req)) :
    (n.handleInstallSnapshotResponse peer req resp).Ensures False lost
      (fun n' d' => Steered m may a id n n' d') d := by
  obtain ⟨t, k, hback⟩ := hcall
  refine Node.handleInstallSnapshotResponse_rule (fun hlater => h.stepDown hinv hlater)
    (fun _ _ => h.unchanged) (fun _ hrole hterm => ?_)
  have hp := h.leader hrole
  have hself : t = a.term id := by
    have := hback.term
    have := h.ballots.term
    omega
  subst hself
  have hk := hback.commit
  have hmatch : Matching a (a.term id) peer req.lastIncludedIndex := by
    refine Or.inr fun j hj => Or.inl ?_
    rw [hback.index] at hj
    omega
  have hbound : req.lastIncludedIndex ≤ n.lastLogIndex := by
    have hle := hinv.commit_le id
    rw [hinv.office_commit id hp.standing] at hle
    rw [hback.index, h.logs.window.lastLogIndex]
    omega
  have hmirror : LogMirror a id (n.recordProgress peer req.lastIncludedIndex).signalReplicate d :=
    (h.recordProgress hrole hmatch hbound).keep rfl rfl rfl rfl fun hl => ⟨hl, rfl, rfl, rfl⟩
  exact ⟨a, .refl a, hmirror, Or.inr ⟨rfl, rfl, rfl⟩, Int.le_refl _, fun _ hlt => absurd hlt (Int.lt_irrefl _)⟩

/-- Appending a command to the leader's log is one step. -/
theorem LogMirror.append (hinv : LogInvariant m.quorums a) (h : LogMirror a id n d)
    (hplaced : Placed m id n d) (hrole : n.role = .leader) (cmd : Bytes) :
    ∃ a', LogRun m may id a a' ∧ a'.standing id = a.standing id ∧
      LogMirror a' id (n.appended cmd) { d with log := d.log ++ [n.newEntry cmd] } := by
  have hp := h.leader hrole
  have hled := hp.led hinv
  let e : Entry := { term := a.term id, type := entryCommand, command := cmd }
  have hkept : n.newEntry cmd = e.kept := by
    simp only [Node.newEntry, Entry.kept, h.ballots.term, e]
  have hstep : LogStep m.quorums may a _ := .append a id e hp.standing rfl
  have hlast : (n.appended cmd).lastLogIndex = n.lastLogIndex + 1 := by
    simp only [Node.lastLogIndex, Node.appended, List.length_append, List.length_singleton]
    omega
  refine ⟨_, .single hinv hstep (fun w hw => ?_) (le_refl _), rfl,
    ⟨h.ballots.term, h.ballots.vote, h.ballots.healthy⟩, Logs.of_window (Function.update_self ..) rfl rfl
      (h.logs.window.append [e] rfl rfl ?_) h.logs.commit h.logs.snapshot h.logs.held h.logs.applied
      h.logs.pending,
    fun _ => ⟨hp.standing, ?_, fun p hpeer => ?_, fun p hpeer => ?_⟩,
    ⟨h.disk.term, h.disk.vote, h.disk.base, ?_, h.disk.snapshot, h.disk.commit⟩⟩
  · simp only [logView, Function.update_of_ne hw]
  · exact congrArg (fun entry => n.log ++ [entry]) hkept
  · refine le_of_le_of_eq (le_of_eq ?_) (setAt_self ..).symm
    change (Function.update a.log id (a.log id ++ [e]) id).length = _
    rw [Function.update_self, List.length_append, List.length_singleton]
  · have hne : p ≠ n.id := by
      rw [hplaced.self]
      exact (Membership.mem_peers.mp (hplaced.peers ▸ hpeer)).2
    rw [show (n.appended cmd).matchIndex p = n.matchIndex p from Function.update_of_ne hne ..]
    exact (hp.matched p hpeer).mono hled (hstep.grows hinv)
  · have hne : p ≠ n.id := by
      rw [hplaced.self]
      exact (Membership.mem_peers.mp (hplaced.peers ▸ hpeer)).2
    rw [show (n.appended cmd).nextIndex p = n.nextIndex p from Function.update_of_ne hne .., hlast]
    have := hp.next p hpeer
    omega
  · exact congrArg (· ++ [n.newEntry cmd]) h.disk.log

/-- Starting a command. -/
theorem LogMirror.startCommand (hinv : LogInvariant m.quorums a) (h : LogMirror a id n d)
    (hplaced : Placed m id n d) (hid : id ∈ m.ids) (cmd : Bytes) :
    (n.startCommand cmd).Ensures False lost (fun r d' => Steered m may a id n r.1 d') d := by
  refine Node.startCommand_rule (fun _ => h.unchanged) nofun fun _ hrole => ?_
  obtain ⟨a₁, hrun, hst, hmirror⟩ : ∃ a', LogRun m may id a a' ∧ a'.standing id = a.standing id ∧
      LogMirror a' id (n.appended cmd) { d with log := d.log ++ [n.newEntry cmd] } :=
    h.append hinv hplaced hrole cmd
  have hplaced' : Placed m id (n.appended cmd) { d with log := d.log ++ [n.newEntry cmd] } :=
    (hplaced.relog _ _).keep rfl rfl rfl rfl
  have hadvance : (n.appended cmd).advanceCommitIndex.Ensures False lost
      (fun r d' => Steered m may a₁ id (n.appended cmd) r.1 d') _ :=
    hmirror.advanceCommitIndex (hrun.path.invariant hinv) hplaced' hid hrole
  refine hadvance.mono (fun _ hl => hl) ?_
  rintro ⟨moved, advanced⟩ d' ⟨a₂, hrun', hmirror', hpers, happlied, hchosen⟩
  have hkeep : ∀ {final : Node}, final.history = moved.history → final.currentTerm = moved.currentTerm →
      final.votedFor = moved.votedFor → final.degraded = moved.degraded → final.role = moved.role →
      final.peers = moved.peers → final.matchIndex = moved.matchIndex →
      final.nextIndex = moved.nextIndex → Steered m may a id n final d' := by
    intro final h₁ h₂ h₃ h₄ h₅ h₆ h₇ h₈
    have hparts := h₁
    simp only [Node.history, Prod.mk.injEq] at hparts
    refine ⟨a₂, hrun.trans hrun', hmirror'.keep h₁ h₂ h₃ h₄ fun hl => ⟨h₅ ▸ hl, h₆, h₇, h₈⟩, ?_, ?_, ?_⟩
    · rcases hpers with hf | ⟨hsame, hterm, hst'⟩
      · exact Or.inl (h₅.trans hf)
      · exact Or.inr ⟨h₅.trans hsame, h₂.trans hterm, hst'.trans hst⟩
    · rw [hparts.2.2.2.2.2.1]
      exact happlied
    · rw [h₅, hparts.2.2.2.1]
      exact hchosen
  cases advanced <;> exact hkeep rfl rfl rfl rfl rfl rfl rfl rfl

/-- Compacting what has been applied is one step. -/
theorem LogMirror.takeSnapshot (hinv : LogInvariant m.quorums a) (h : LogMirror a id n d) {index : Int}
    (hindex : index ≤ n.lastApplied) (data : Bytes) :
    (n.takeSnapshot index data).Ensures False lost (fun r d' => Steered m may a id n r.1 d') d := by
  refine Node.takeSnapshot_rule (fun _ => h.unchanged) (fun _ => h.unchanged)
    fun entry hentry => ⟨False.elim, False.elim, ?_⟩
  obtain ⟨j, whole, rfl, hsnap, hwhole, hkept⟩ := h.logs.window.of_entryAt hentry
  have happlied := h.logs.applied
  have hcommit := h.logs.commit
  have hbelow := h.logs.window.index
  have hcompact : (n.compactTo (n.snapshotAt (j + 1) entry data)).Windows (a.log id) (j + 1) := by
    refine h.logs.window.compact hentry rfl rfl ?_
    have hshift : ((j : Int) + 1 - n.snapshotIndex).toNat = j + 1 - a.snap id := by omega
    exact congrArg n.log.drop hshift
  refine ⟨_, .single hinv (.compact a id (j + 1) (by omega) (by omega)) (fun w hw => ?_) (le_refl _),
    ⟨⟨h.ballots.term, h.ballots.vote, h.ballots.healthy⟩, Logs.of_window rfl (Function.update_self ..) rfl
      hcompact hcommit ?_ (fun _ hnone => by cases hnone) happlied ?_, fun hl => ?_, ?_⟩,
    Or.inr ⟨rfl, rfl, rfl⟩, Int.le_refl _, fun _ hlt => absurd hlt (Int.lt_irrefl _)⟩
  · simp only [logView, Function.update_of_ne hw]
  · intro s hs
    cases hs
    exact ⟨rfl, rfl⟩
  · intro s hs
    have := h.logs.pending s hs
    change s.lastIncludedIndex ≤ (j : Int) + 1
    omega
  · have hp := h.leader hl
    refine ⟨hp.standing, hp.own, hp.matched, ?_⟩
    rw [hcompact.lastLogIndex, ← h.logs.window.lastLogIndex]
    exact hp.next
  · exact ⟨h.disk.term, h.disk.vote, rfl, rfl, rfl, fun hnone => by cases hnone⟩

/-- A command at an index is decided: some leader has chosen the position or one behind it. -/
def Decided (a : RaftLog) (index : Int) (entry : LogEntry) : Prop :=
  ∃ (t k j : ℕ) (whole : Entry), a.chosen t k ∧ j ≤ k ∧ index = j + 1 ∧
    (a.leaderLog t)[j]? = some whole ∧ entry = whole.kept

/-- Decisions are final. -/
theorem Decided.mono {index : Int} {entry : LogEntry} (h : Decided a index entry)
    (hinv : LogInvariant m.quorums a) (hgrows : a.Grows a') : Decided a' index entry := by
  obtain ⟨t, k, j, whole, hchosen, hj, hindex, hwhole, hkept⟩ := h
  exact ⟨t, k, j, whole, hgrows.chosen t k hchosen, hj, hindex,
    hgrows.toExtends.entry (hinv.chosen_ok t k hchosen).1 hwhole, hkept⟩

/-- Only one entry is decided at an index: later leaders hold what earlier ones have chosen. -/
theorem Decided.unique {index : Int} {entry entry' : LogEntry} (hinv : LogInvariant m.quorums a)
    (h : Decided a index entry) (h' : Decided a index entry') : entry = entry' := by
  obtain ⟨t, k, j, whole, hchosen, hj, rfl, hwhole, rfl⟩ := h
  obtain ⟨t', k', j', whole', hchosen', hj', hindex, hwhole', rfl⟩ := h'
  obtain rfl : j = j' := by omega
  have hled := (hinv.chosen_ok t k hchosen).1
  have hled' := (hinv.chosen_ok t' k' hchosen').1
  have hsame : (a.leaderLog t)[j]? = (a.leaderLog t')[j]? := by
    rcases Nat.le_total t t' with hle | hle
    · exact (hinv.completeness hchosen t' hled' hle j (by omega)).symm
    · exact hinv.completeness hchosen' t hled hle j (by omega)
  rw [hwhole, hwhole'] at hsame
  rw [Option.some.inj hsame]

/-- What a participant has committed is decided. -/
theorem decided_of_committed (hinv : LogInvariant m.quorums a) {j : ℕ} {whole : Entry}
    (hwhole : (a.log id)[j]? = some whole) (hj : j < a.commit id) : Decided a (j + 1) whole.kept := by
  rcases hinv.settled id with hzero | ⟨t, k, _, hchosen, hk, hagree⟩
  · omega
  · exact ⟨t, k, j, whole, hchosen, by omega, rfl, by rw [← hagree j (by omega), hwhole], rfl⟩

/-- What a node has committed is decided. -/
theorem LogMirror.decided (hinv : LogInvariant m.quorums a) (h : LogMirror a id n d) {index : Int}
    {entry : LogEntry} (hentry : n.entryAt index = some entry) (hcommit : index ≤ n.commitIndex) :
    Decided a index entry := by
  obtain ⟨j, whole, rfl, _, hwhole, rfl⟩ := h.logs.window.of_entryAt hentry
  rw [h.logs.commit] at hcommit
  exact decided_of_committed hinv hwhole (by omega)

/-- Changing how far a node has applied its log, and which snapshot it still has to deliver. -/
theorem LogMirror.applying (h : LogMirror a id n d) {applied : Int} {pending : Option Snapshot}
    (hlow : n.lastApplied ≤ applied) (hhigh : applied ≤ n.commitIndex)
    (hpending : ∀ s, pending = some s → s.lastIncludedIndex ≤ n.snapshotIndex) :
    Steered m may a id n { n with lastApplied := applied, pendingSnapshot := pending } d := by
  refine ⟨a, .refl a, ⟨⟨h.ballots.term, h.ballots.vote, h.ballots.healthy⟩,
    ⟨h.logs.window.keep rfl rfl rfl, h.logs.commit, h.logs.snapshot, h.logs.held, hhigh, hpending⟩,
    fun hl => ?_, ⟨h.disk.term, h.disk.vote, h.disk.base, h.disk.log, h.disk.snapshot, h.disk.commit⟩⟩,
    Or.inr ⟨rfl, rfl, rfl⟩, hlow, fun _ hlt => absurd hlt (Int.lt_irrefl _)⟩
  have hp := h.leader hl
  exact ⟨hp.standing, hp.own, hp.matched, hp.next⟩

/-- What picking an entry leaves behind: the entry is decided. -/
def Picked (m : Membership) (may : RaftLog → String → ℕ → Prop) (a : RaftLog) (id : String) (n : Node)
    (r : Node × Option (LogEntry × Int)) (d' : PersistentState) : Prop :=
  Steered m may a id n r.1 d' ∧ ∀ entry index, r.2 = some (entry, index) → Decided a index entry

/-- Picking an entry to apply. -/
theorem LogMirror.nextToApply (hinv : LogInvariant m.quorums a) (h : LogMirror a id n d)
    (hlost : lost d) :
    n.nextToApply.Ensures False lost (Picked m may a id n) d := by
  refine Node.nextToApply_rule (fun _ _ _ => hlost) ⟨h.unchanged, nofun⟩ fun hlt entry hentry =>
    ⟨h.applying (by omega) (by omega) h.logs.pending, fun e i hpicked => ?_⟩
  cases hpicked
  exact h.decided hinv hentry (by omega)

/-- What looking for something to send to a peer leaves behind: a request that is backed. -/
def Sending {R : Type} (m : Membership) (may : RaftLog → String → ℕ → Prop) (a : RaftLog) (id : String)
    (n : Node) (wrap : R → Request) (r : Node × Option (Option R)) (d' : PersistentState) : Prop :=
  Steered m may a id n r.1 d' ∧ ∀ req, r.2 = some (some req) → CallBacked a id (wrap req)

/-- A leader's snapshot is sent as it is. -/
theorem LogMirror.installSnapshotRequestForPeer (hinv : LogInvariant m.quorums a) (h : LogMirror a id n d)
    (peer : String) :
    (n.installSnapshotRequestForPeer peer).Ensures False lost (Sending m may a id n .install) d := by
  refine Node.installSnapshotRequestForPeer_rule (fun hne hnone => absurd hnone (h.logs.held hne))
    (fun _ => ⟨h.unchanged, nofun⟩) (fun _ _ => ⟨h.unchanged, nofun⟩)
    (fun _ _ => ⟨h.steered rfl rfl rfl rfl rfl rfl rfl rfl, nofun⟩)
    (fun hrole _ _ snap hsnap => ⟨h.steered rfl rfl rfl rfl rfl rfl rfl rfl, fun req hreq => ?_⟩)
  cases hreq
  have hp := h.leader hrole
  obtain ⟨hindex, hterm⟩ := h.logs.snapshot snap hsnap
  refine ⟨a.term id, a.snap id, h.ballots.term, hinv.election.in_office id hp.standing,
    hindex.trans h.logs.window.index, ?_, ?_⟩
  · rw [← hinv.office_commit id hp.standing]
    exact hinv.snap_le id
  · rw [← hinv.office_log id hp.standing]
    exact hterm.trans h.logs.window.term

/-- Entries are sent as the leader holds them. -/
theorem LogMirror.appendEntriesRequestForPeer (hinv : LogInvariant m.quorums a) (h : LogMirror a id n d)
    (hlost : lost d) {peer : String} (hpeer : peer ∈ n.peers) :
    (n.appendEntriesRequestForPeer peer).Ensures False lost (Sending m may a id n .append) d := by
  refine Node.appendEntriesRequestForPeer_rule (fun _ _ _ => hlost) (fun _ => ⟨h.unchanged, nofun⟩)
    (fun _ _ => ⟨h.steered rfl rfl rfl rfl rfl rfl rfl rfl, nofun⟩)
    (fun hrole _ req hreq => ⟨h.steered rfl rfl rfl rfl rfl rfl rfl rfl, fun req' hreq' => ?_⟩)
  cases hreq'
  have hp := h.leader hrole
  have hcommit := hinv.commit_le id
  obtain ⟨p, hp₁, hp₂, hterm, hprev, hprevTerm, hentries, hleaderCommit⟩ :=
    h.logs.window.appendEntriesRequest (hp.next peer hpeer) hreq
  refine ⟨a.term id, p, (a.log id).length, a.commit id, hterm.trans h.ballots.term,
    hinv.election.in_office id hp.standing, ?_, hprev, ?_, ?_, hleaderCommit.trans h.logs.commit, hcommit, ?_⟩
  · rw [← hinv.office_log id hp.standing]
    exact ⟨hp₂, le_refl _⟩
  · rw [← hinv.office_log id hp.standing]
    exact hprevTerm
  · rw [← hinv.office_log id hp.standing, List.take_length]
    exact hentries
  · rw [hinv.office_commit id hp.standing]

/-- A disk that holds what is in memory restores the window on the log. -/
theorem Saved.newNode_window (hsaved : Saved n d) (h : Logs a id n) (self : String) (peers : List String) :
    (newNode self peers d).snapshotIndex = n.snapshotIndex ∧
      (newNode self peers d).snapshotTerm = n.snapshotTerm ∧ (newNode self peers d).log = n.log := by
  have hindex : d.snapshot.elim 0 Snapshot.lastIncludedIndex = n.snapshotIndex ∧
      d.snapshot.elim 0 Snapshot.lastIncludedTerm = n.snapshotTerm := by
    rw [hsaved.snapshot]
    cases hs : n.snapshot with
    | none =>
      have hzero : n.snapshotIndex = 0 := by
        by_contra hne
        exact h.held hne hs
      have hsnap : a.snap id = 0 := by
        have := h.window.index
        omega
      rw [hzero, h.window.term, hsnap]
      exact ⟨rfl, rfl⟩
    | some s => exact h.snapshot s hs
  refine ⟨by rw [newNode_snapshotIndex, hindex.1], by rw [newNode_snapshotTerm, hindex.2], ?_⟩
  rw [newNode_log, hindex.1, hsaved.base, hsaved.log, Int.sub_self]
  have hnone : (min (max 0 0) (n.log.length : Int)).toNat = 0 := by omega
  rw [hnone, List.drop_zero]

/-- A restarted node mirrors the replicated log, with its commit position back at its snapshot or
where it was saved. -/
theorem LogMirror.restart (hinv : LogInvariant m.quorums a) (h : LogMirror a id n d) (self : String)
    (peers : List String) :
    ∃ a', LogPath m may id a a' ∧ LogMirror a' id (newNode self peers d) d := by
  obtain ⟨hindex, hterm, hlog⟩ := h.disk.newNode_window h.logs self peers
  have hsnap := h.logs.window.index
  have hcommit := h.logs.commit
  have hlow := hinv.snap_le id
  have hhigh := hinv.commit_le id
  have hwindow : (newNode self peers d).Windows (a.log id) (a.snap id) :=
    h.logs.window.keep hindex hterm hlog
  -- the commit index that `NewNode` restores
  obtain ⟨k, hk, hk₁, hk₂, hsame⟩ : ∃ k : ℕ, (newNode self peers d).commitIndex = k ∧
      a.snap id ≤ k ∧ k ≤ a.commit id ∧ (d.snapshot = none → k = a.commit id) := by
    rw [newNode_commitIndex, hwindow.lastLogIndex]
    rw [newNode_snapshotIndex] at hindex
    cases hs : d.snapshot with
    | none =>
      rw [hs] at hindex
      refine ⟨a.commit id, ?_, hlow, le_refl _, fun _ => rfl⟩
      simp only [Option.elim_none] at hindex ⊢
      rw [h.disk.commit hs]
      omega
    | some s =>
      rw [hs] at hindex
      refine ⟨a.snap id, ?_, le_refl _, hlow, nofun⟩
      simp only [Option.elim_some] at hindex ⊢
      omega
  refine ⟨_, .single (.retreat a id k hk₁ hk₂) (fun w hw => ?_), .of_term rfl ?_ ?_ (newNode_degraded ..),
    Logs.of_window rfl rfl (Function.update_self ..) hwindow hk (fun s hs => ?_) ?_ ?_ (fun s hs => ?_),
    fun hl => ?_, ⟨(newNode_currentTerm ..).symm, (newNode_votedFor ..).symm, h.disk.base.trans hindex.symm,
      h.disk.log.trans hlog.symm, (newNode_snapshot ..).symm, fun hnone => ?_⟩⟩
  · simp only [logView, Function.update_of_ne hw]
  · rw [newNode_votedFor, h.disk.vote]
    exact h.ballots.vote
  · rw [newNode_currentTerm, h.disk.term]
    exact h.ballots.term
  · rw [newNode_snapshot, h.disk.snapshot] at hs
    rw [hindex, hterm]
    exact h.logs.snapshot s hs
  · rw [hindex, newNode_snapshot, h.disk.snapshot]
    exact h.logs.held
  · rw [newNode_lastApplied, ← newNode_snapshotIndex self peers d, hindex]
    omega
  · rw [newNode_pendingSnapshot, h.disk.snapshot] at hs
    rw [hindex, (h.logs.snapshot s hs).1]
  · rw [newNode_role] at hl
    cases hl
  · rw [h.disk.commit hnone, hk, hsame hnone, hcommit]

end ConsensusLab.Raft
