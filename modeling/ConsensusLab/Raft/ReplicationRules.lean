import ConsensusLab.Raft.Steps

/-!
# Rules for elections, replication, commands and compaction

The counterpart of the handler rules for the sections that a node runs on its own
account: one hypothesis for each way through a section.
-/

namespace ConsensusLab.Raft

open Foundation StorageProgram

namespace Node

variable {Disk : Type} {effect : StorageCall → Disk → Disk} {faults : Prop} {lost : Disk → Prop} {disk : Disk}
  {n : Node}

/-- The node as a candidate of the next term. -/
def standing (n : Node) : Node :=
  { n with currentTerm := n.currentTerm + 1, votedFor := n.id }

/-- The request with which a candidate asks for votes. -/
def voteRequest (n : Node) : RequestVoteRequest where
  term := n.currentTerm
  candidateID := n.id
  lastLogIndex := n.lastLogIndex
  lastLogTerm := n.lastLogTerm

/-- The node as a follower in a later term. -/
def retired (n : Node) (term : Int) : Node :=
  { n with currentTerm := term, votedFor := "", role := .follower }

/-- Starting an election: the new term and vote are saved, or the node is degraded. -/
theorem startElection_rule {Q : Node × Option RequestVoteRequest → Disk → Prop}
    (hfail : faults → lost disk ∧ Q ({ n with role := .follower }.markDegraded, none) disk)
    (hdone : Q (n.standing, some n.standing.voteRequest) (effect (.saveHardState n.standing.hardState) disk)) :
    Ensures effect faults lost Q n.startElection disk := by
  simp only [startElection, ensures_bind]
  exact ⟨hfail, hdone⟩

/-- Stepping down: the later term is saved, or the node is degraded in it. -/
theorem stepDown_rule {Q : Node → Disk → Prop} {term : Int}
    (hfail : faults → lost disk ∧ Q (n.retired term).markDegraded disk)
    (hdone : Q (n.retired term) (effect (.saveHardState (n.retired term).hardState) disk)) :
    Ensures effect faults lost Q (n.stepDown term) disk := by
  simp only [stepDown, ensures_bind]
  exact ⟨hfail, hdone⟩

/-- Reading a vote: the node steps down, has lost its candidacy, wins or goes on. -/
theorem handleVoteResponse_rule {Q : Node × Option ℕ → Disk → Prop} {votes majority : ℕ}
    {resp : RequestVoteResponse}
    (hdown : n.currentTerm < resp.term →
      Ensures effect faults lost (fun moved d => Q (moved, none) d) (n.stepDown resp.term) disk)
    (hover : resp.term ≤ n.currentTerm → n.role ≠ .candidate → Q (n, none) disk)
    (hwin : resp.term ≤ n.currentTerm → n.role = .candidate →
      majority ≤ (if resp.voteGranted then votes + 1 else votes) → Q (n.becomeLeader, none) disk)
    (hmore : resp.term ≤ n.currentTerm → n.role = .candidate →
      Q (n, some (if resp.voteGranted then votes + 1 else votes)) disk) :
    Ensures effect faults lost Q (n.handleVoteResponse votes majority resp) disk := by
  simp only [handleVoteResponse, ensures_ite, ensures_bind]
  refine ⟨hdown, fun hle => ⟨hover (by omega), fun hrole => ⟨hwin (by omega) (not_not.mp hrole), fun _ => ?_⟩⟩⟩
  exact hmore (by omega) (not_not.mp hrole)

/-- An index that the leader may commit: new, of its own term, and matched by a quorum. -/
structure Committable (n : Node) (index : Int) : Prop where
  fresh : n.commitIndex < index
  own : ∃ entry, n.entryAt index = some entry ∧ entry.term = n.currentTerm
  quorum : n.quorumSize ≤ 1 + (n.peers.filter (fun p => n.matchIndex p ≥ index)).length

/-- Only indices of the log are committable. -/
theorem Committable.le_lastLogIndex {i : Int} (h : n.Committable i) : i ≤ n.lastLogIndex := by
  obtain ⟨entry, hentry, _⟩ := h.own
  exact (entryAt_eq_some hentry).2.1

/-- The search for a commit index finds the last committable one up to where it starts; it panics only if
the commit index lies below the snapshot. -/
theorem findCommit_rule {Q : Option Int → Disk → Prop} {fuel : ℕ} {index : Int}
    (hlost : n.commitIndex < n.snapshotIndex → lost disk)
    (hnone : (∀ i ≤ index, ¬n.Committable i) → Q none disk)
    (hsome : ∀ i, n.Committable i → (∀ j ≤ index, n.Committable j → j ≤ i) → Q (some i) disk)
    (hindex : index ≤ n.lastLogIndex) (hfuel : index - n.commitIndex ≤ fuel) :
    Ensures effect faults lost Q (n.findCommit fuel index) disk := by
  induction fuel generalizing index with
  | zero =>
    refine hnone fun i hi hc => ?_
    have := hc.fresh
    omega
  | succ fuel ih =>
    simp only [findCommit, ensures_ite]
    refine ⟨fun hfresh => ?_, fun hold => hnone fun i hi hc => ?_⟩
    · split
      · rename_i hentry
        refine hlost ?_
        by_contra hle
        obtain ⟨entry, hsome⟩ := exists_entryAt (n := n) (i := index) (by omega) hindex
        rw [hentry] at hsome
        cases hsome
      · rename_i entry hentry
        simp only [ensures_ite]
        refine ⟨fun h => ?_, fun hmiss => ?_⟩
        · exact hsome index ⟨hfresh, ⟨entry, hentry, h.1⟩, h.2⟩ fun j hj _ => hj
        · -- the index itself is out, so the last committable one lies below it
          have hbelow : ∀ j ≤ index, n.Committable j → j ≤ index - 1 := by
            intro j hj hc
            by_contra hlt
            obtain rfl : j = index := by omega
            obtain ⟨own, hown, hterm⟩ := hc.own
            rw [hentry] at hown
            cases hown
            exact hmiss ⟨hterm, hc.quorum⟩
          exact ih (fun h => hnone fun i hi hc => h i (hbelow i hi hc) hc)
            (fun i hc h => hsome i hc fun j hj hj' => h j (hbelow j hj hj') hj') (by omega) (by omega)
    · have := hc.fresh
      omega

/-- Advancing the commit index: no index is committable, or the last one that is committable is saved. -/
theorem advanceCommitIndex_exact_rule {Q : Node × Bool → Disk → Prop}
    (hlost : faults ∨ n.commitIndex < n.snapshotIndex → lost disk)
    (hstay : (∀ i, ¬n.Committable i) → Q (n, false) disk)
    (hmove : ∀ i, n.Committable i → (∀ j, n.Committable j → j ≤ i) →
      (faults → Q ({ n with commitIndex := i }.markDegraded, false) disk) ∧
        Q ({ n with commitIndex := i }, true)
          (effect (.saveHardState { n with commitIndex := i }.hardState) disk)) :
    Ensures effect faults lost Q n.advanceCommitIndex disk := by
  simp only [advanceCommitIndex, ensures_bind]
  refine findCommit_rule (fun h => hlost (Or.inr h)) (fun hnone => ?_) (fun i hi hlast => ?_)
    (Int.le_refl _) (by omega)
  · exact hstay fun i hi => hnone i hi.le_lastLogIndex hi
  · have h := hmove i hi fun j hj => hlast j hj.le_lastLogIndex hj
    simp only [ensures_bind]
    exact ⟨fun hf => ⟨hlost (Or.inl hf), h.1 hf⟩, h.2⟩

/-- Advancing the commit index: it stays, or a committable index is saved. -/
theorem advanceCommitIndex_rule {Q : Node × Bool → Disk → Prop}
    (hlost : faults ∨ n.commitIndex < n.snapshotIndex → lost disk) (hstay : Q (n, false) disk)
    (hmove : ∀ i, n.Committable i →
      (faults → Q ({ n with commitIndex := i }.markDegraded, false) disk) ∧
        Q ({ n with commitIndex := i }, true)
          (effect (.saveHardState { n with commitIndex := i }.hardState) disk)) :
    Ensures effect faults lost Q n.advanceCommitIndex disk :=
  advanceCommitIndex_exact_rule hlost (fun _ => hstay) fun i hi _ => hmove i hi

/-- The node with a replication to a peer postponed. -/
def postponed (n : Node) (peerID : String) : Node :=
  { n with replicatePending := Function.update n.replicatePending peerID true }

/-- The node with a replication to a peer under way. -/
def sending (n : Node) (peerID : String) : Node :=
  { n with replicateInFlight := Function.update n.replicateInFlight peerID true }

/-- The request that carries the node's snapshot. -/
def snapshotRequest (n : Node) (snap : Snapshot) : InstallSnapshotRequest where
  term := n.currentTerm
  leaderID := n.id
  lastIncludedIndex := snap.lastIncludedIndex
  lastIncludedTerm := snap.lastIncludedTerm
  config := snap.config
  data := snap.data

/-- Looking for a snapshot to send: the office is lost, none is needed, or another send is under
way, or the node's snapshot is sent. -/
theorem installSnapshotRequestForPeer_rule
    {Q : Node × Option (Option InstallSnapshotRequest) → Disk → Prop} {peerID : String}
    (hlost : n.snapshotIndex ≠ 0 → n.snapshot = none → lost disk)
    (hover : n.role ≠ .leader → Q (n, none) disk)
    (hskip : n.role = .leader → n.snapshotIndex = 0 ∨ n.snapshotIndex < n.nextIndex peerID →
      Q (n, some none) disk)
    (hbusy : n.role = .leader → n.replicateInFlight peerID = true →
      Q (n.postponed peerID, some none) disk)
    (hsend : n.role = .leader → n.replicateInFlight peerID = false → n.nextIndex peerID ≤ n.snapshotIndex →
      ∀ snap, n.snapshot = some snap →
        Q (n.sending peerID, some (some (n.snapshotRequest snap))) disk) :
    Ensures effect faults lost Q (n.installSnapshotRequestForPeer peerID) disk := by
  simp only [installSnapshotRequestForPeer, ensures_ite, Bool.not_eq_true]
  refine ⟨hover, fun hrole => ⟨hskip (not_not.mp hrole), fun hneed =>
    ⟨hbusy (not_not.mp hrole), fun hidle => ?_⟩⟩⟩
  split
  · exact hlost (fun h => hneed (Or.inl h)) ‹_›
  · exact hsend (not_not.mp hrole) hidle (Int.not_lt.mp fun h => hneed (Or.inr h)) _ ‹_›

/-- Building entries to send: the office is lost, another send is under way, or a request is built. -/
theorem appendEntriesRequestForPeer_rule
    {Q : Node × Option (Option AppendEntriesRequest) → Disk → Prop} {peerID : String}
    (hlost : n.role = .leader → n.replicateInFlight peerID = false →
      n.appendEntriesRequest (max 1 (n.nextIndex peerID)) = none → lost disk)
    (hover : n.role ≠ .leader → Q (n, none) disk)
    (hbusy : n.role = .leader → n.replicateInFlight peerID = true →
      Q (n.postponed peerID, some none) disk)
    (hsend : n.role = .leader → n.replicateInFlight peerID = false → ∀ req,
      n.appendEntriesRequest (max 1 (n.nextIndex peerID)) = some req →
        Q (n.sending peerID, some (some req)) disk) :
    Ensures effect faults lost Q (n.appendEntriesRequestForPeer peerID) disk := by
  simp only [appendEntriesRequestForPeer, ensures_ite, Bool.not_eq_true]
  refine ⟨hover, fun hrole => ⟨hbusy (not_not.mp hrole), fun hidle => ?_⟩⟩
  split
  · exact hlost (not_not.mp hrole) hidle ‹_›
  · exact hsend (not_not.mp hrole) hidle _ ‹_›

/-- The node after a rejection by a peer. -/
def backedOff (n : Node) (peerID : String) (resp : AppendEntriesResponse) : Node :=
  { n with nextIndex := Function.update n.nextIndex peerID (n.backOff peerID resp) }

/-- Processing an AppendEntries response: the node steps down, the response is stale, a rejection, or
progress. -/
theorem handleAppendEntriesResponse_rule {Q : Node × Signals → Disk → Prop}
    {peerID : String} {req : AppendEntriesRequest} {resp : AppendEntriesResponse}
    (hdown : n.currentTerm < resp.term →
      Ensures effect faults lost (fun moved d => Q (moved, .none) d) (n.stepDown resp.term) disk)
    (hstale : resp.term ≤ n.currentTerm → n.role ≠ .leader ∨ req.term ≠ n.currentTerm →
      Q (n, .none) disk)
    (hreject : resp.term ≤ n.currentTerm → n.role = .leader → req.term = n.currentTerm →
      resp.success = false →
      Q (n.backedOff peerID resp, { apply := false, replicate := true }) disk)
    (haccept : resp.term ≤ n.currentTerm → n.role = .leader → req.term = n.currentTerm →
      resp.success = true →
      Ensures effect faults lost
        (fun moved d => Q (moved.1, { apply := moved.2, replicate := decide (0 < req.entries.length) }) d)
        (n.recordProgress peerID (req.prevLogIndex + req.entries.length)).advanceCommitIndex disk) :
    Ensures effect faults lost Q (n.handleAppendEntriesResponse peerID req resp) disk := by
  simp only [handleAppendEntriesResponse, ensures_ite, ensures_bind, Bool.not_eq_false]
  refine ⟨hdown, fun hle => ⟨fun hrole => hstale (by omega) (Or.inl hrole), fun hrole =>
    ⟨fun hterm => hstale (by omega) (Or.inr hterm), fun hterm => ?_⟩⟩⟩
  exact ⟨hreject (by omega) (not_not.mp hrole) (not_not.mp hterm),
    haccept (by omega) (not_not.mp hrole) (not_not.mp hterm)⟩

/-- Processing an InstallSnapshot response: the node steps down, the response is stale, or
progress. -/
theorem handleInstallSnapshotResponse_rule {Q : Node → Disk → Prop}
    {peerID : String} {req : InstallSnapshotRequest} {resp : InstallSnapshotResponse}
    (hdown : n.currentTerm < resp.term → Ensures effect faults lost Q (n.stepDown resp.term) disk)
    (hstale : resp.term ≤ n.currentTerm → n.role ≠ .leader ∨ req.term ≠ n.currentTerm → Q n disk)
    (haccept : resp.term ≤ n.currentTerm → n.role = .leader → req.term = n.currentTerm →
      Q (n.recordProgress peerID req.lastIncludedIndex).signalReplicate disk) :
    Ensures effect faults lost Q (n.handleInstallSnapshotResponse peerID req resp) disk := by
  simp only [handleInstallSnapshotResponse, ensures_ite]
  refine ⟨hdown, fun hle => ⟨hstale (by omega), fun hfine => ?_⟩⟩
  rw [not_or, not_not, not_not] at hfine
  exact haccept (by omega) hfine.1 hfine.2

/-- The entry that a leader creates for a command. -/
def newEntry (n : Node) (cmd : Bytes) : LogEntry where
  term := n.currentTerm
  type := entryCommand
  command := cmd

/-- The leader with a command appended and its own progress recorded. -/
def appended (n : Node) (cmd : Bytes) : Node :=
  { n with
    log := n.log ++ [n.newEntry cmd]
    matchIndex := Function.update n.matchIndex n.id (n.lastLogIndex + 1)
    nextIndex := Function.update n.nextIndex n.id (n.lastLogIndex + 2) }

/-- Starting a command: refused, not saved, or appended and possibly committed at once. -/
theorem startCommand_rule {Q : Node × Option Int → Disk → Prop} {cmd : Bytes}
    (hrefuse : n.degraded = true ∨ n.role ≠ .leader → Q (n, none) disk)
    (hfail : n.degraded = false → n.role = .leader → faults → lost disk ∧ Q (n, none) disk)
    (hdone : n.degraded = false → n.role = .leader →
      Ensures effect faults lost
        (fun moved d =>
          Q ((if moved.2 then moved.1.notifyApply else moved.1).signalReplicate,
            some (n.lastLogIndex + 1)) d)
        (n.appended cmd).advanceCommitIndex (effect (.appendLog [n.newEntry cmd]) disk)) :
    Ensures effect faults lost Q (n.startCommand cmd) disk := by
  have hindex : ({ n with log := n.log ++ [n.newEntry cmd] } : Node).lastLogIndex = n.lastLogIndex + 1 := by
    simp only [lastLogIndex, List.length_append, List.length_singleton]
    omega
  simp only [startCommand, ensures_ite, ensures_bind, not_or, not_not, Bool.not_eq_true]
  refine ⟨hrefuse, fun hlead => ⟨fun hf => ⟨(hfail hlead.1 hlead.2 hf).1, ?_⟩, ?_⟩⟩
  · simp only [logTo_append]
    exact (hfail hlead.1 hlead.2 hf).2
  · have h := hdone hlead.1 hlead.2
    simp only [appended, show n.lastLogIndex + 2 = n.lastLogIndex + 1 + 1 by omega] at h
    rw [← hindex] at h
    change Ensures _ _ _ _ (advanceCommitIndex _ >>= _) _
    rw [ensures_bind]
    exact h

/-- The snapshot that compacting the log at an index takes. -/
def snapshotAt (n : Node) (index : Int) (entry : LogEntry) (data : Bytes) : Snapshot where
  lastIncludedIndex := index
  lastIncludedTerm := entry.term
  config := n.config
  data := data

/-- Compacting the log: nothing to do, too far, or the snapshot is saved and the log cut. -/
theorem takeSnapshot_rule {Q : Node × Except RaftError Unit → Disk → Prop} {index : Int}
    {data : Bytes} (hold : index ≤ n.snapshotIndex → Q (n, .ok ()) disk)
    (hbeyond : n.lastLogIndex < index →
      Q (n, .error (.snapshotBeyondLog index n.lastLogIndex)) disk)
    (hnew : ∀ entry, n.entryAt index = some entry →
      (faults → lost disk ∧ Q (n, .error .storage) disk) ∧
      (faults → lost (effect (.saveSnapshot (n.snapshotAt index entry data)) disk) ∧
        Q (n.compactTo (n.snapshotAt index entry data), .ok ())
          (effect (.saveSnapshot (n.snapshotAt index entry data)) disk)) ∧
      Q (n.compactTo (n.snapshotAt index entry data), .ok ())
        (effect (.setLog index (n.compactTo (n.snapshotAt index entry data)).log)
          (effect (.saveSnapshot (n.snapshotAt index entry data)) disk))) :
    Ensures effect faults lost Q (n.takeSnapshot index data) disk := by
  simp only [takeSnapshot, ensures_ite]
  refine ⟨hold, fun hlow => ⟨hbeyond, fun hhigh => ?_⟩⟩
  obtain ⟨entry, hentry⟩ := exists_entryAt (n := n) (i := index) (by omega) (by omega)
  simp only [hentry, ensures_bind]
  exact hnew entry hentry

/-- The node with its next entry on the way to the state machine. -/
def picked (n : Node) : Node :=
  { n with lastApplied := n.lastApplied + 1 }

/-- Picking an entry: everything committed is applied, the log ends, or the entry at the next index; reading
it may panic. -/
theorem nextToApply_exact_rule {Q : Node × Option (LogEntry × Int) → Disk → Prop}
    (hlost : n.lastApplied < n.commitIndex → n.lastApplied < n.lastLogIndex →
      n.entryAt (n.lastApplied + 1) = none → lost disk)
    (hnone : n.commitIndex ≤ n.lastApplied ∨ n.lastLogIndex ≤ n.lastApplied → Q (n, none) disk)
    (hsome : n.lastApplied < n.commitIndex → ∀ entry, n.entryAt (n.lastApplied + 1) = some entry →
      Q (n.picked, some (entry, n.lastApplied + 1)) disk) :
    Ensures effect faults lost Q n.nextToApply disk := by
  simp only [nextToApply, ensures_ite]
  refine ⟨fun hall => hnone (Or.inl hall), fun hcommit => ⟨fun hend => hnone (Or.inr (by omega)), fun hlast => ?_⟩⟩
  split
  · exact hlost (by omega) (by omega) ‹_›
  · exact hsome (by omega) _ ‹_›

/-- The same where it does not matter why nothing is picked. -/
theorem nextToApply_rule {Q : Node × Option (LogEntry × Int) → Disk → Prop}
    (hlost : n.lastApplied < n.commitIndex → n.lastApplied < n.lastLogIndex →
      n.entryAt (n.lastApplied + 1) = none → lost disk)
    (hnone : Q (n, none) disk)
    (hsome : n.lastApplied < n.commitIndex → ∀ entry, n.entryAt (n.lastApplied + 1) = some entry →
      Q (n.picked, some (entry, n.lastApplied + 1)) disk) :
    Ensures effect faults lost Q n.nextToApply disk :=
  nextToApply_exact_rule hlost (fun _ => hnone) hsome

end Node

end ConsensusLab.Raft
