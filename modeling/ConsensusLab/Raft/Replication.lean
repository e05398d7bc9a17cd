import ConsensusLab.Raft.RpcHandlers

/-!
# Elections, replication, commands and compaction

The sections of `runFollower`, `runCandidate`, `runLeader`, `sendAppendEntries`,
`sendInstallSnapshot`, `StartCommand`, `Snapshot` and `runApplyLoop`. What happens
between two sections of one goroutine is up to the schedule, which the server's step
function takes as input.
-/

namespace ConsensusLab.Raft

open Foundation

namespace Node

/-- `markDegradedLocked`. -/
def markDegraded (n : Node) : Node :=
  { n with degraded := true }

/-- The timer branch of `runFollower`. -/
def convertToCandidate (n : Node) : Node :=
  { n with role := .candidate }

/-- The first section of `runCandidate`. A failed save takes the new term and vote back; otherwise
the election's term and the position of the node's log are returned. Terms are not bounded here;
in the source the increment of the largest `int64` wraps around. -/
def startElection (n : Node) : Section (Node × Option RequestVoteRequest) := do
  let standing := { n with currentTerm := n.currentTerm + 1, votedFor := n.id }
  if ← standing.persistHardState then
    let req : RequestVoteRequest :=
      { term := standing.currentTerm, candidateID := n.id
        lastLogIndex := standing.lastLogIndex, lastLogTerm := standing.lastLogTerm }
    pure (standing, some req)
  else
    pure ({ standing.markDegraded with
      currentTerm := n.currentTerm, votedFor := n.votedFor, role := .follower }, none)

/-- A response with a higher term ends a candidacy or a leadership. A failed save degrades the node
and leaves the new term in memory. -/
def stepDown (n : Node) (term : Int) : Section Node := do
  let moved := { n with currentTerm := term, votedFor := "", role := .follower }
  if ← moved.persistHardState then
    pure moved
  else
    pure moved.markDegraded

/-- The winning branch of `runCandidate`. -/
def becomeLeader (n : Node) : Node :=
  { n with
    role := .leader
    nextIndex := fun p => if p = n.id ∨ p ∈ n.peers then n.lastLogIndex + 1 else n.nextIndex p
    matchIndex := fun p => if p = n.id ∨ p ∈ n.peers then 0 else n.matchIndex p }

/-- One response in `runCandidate`, given the votes so far: the new count, or nothing when the
election is over. The response's own term is not compared with the election's. -/
def handleVoteResponse (n : Node) (votes majority : ℕ) (resp : RequestVoteResponse) :
    Section (Node × Option ℕ) :=
  if resp.term > n.currentTerm then do
    let moved ← n.stepDown resp.term
    pure (moved, none)
  else if n.role ≠ .candidate then
    pure (n, none)
  else
    let counted := if resp.voteGranted then votes + 1 else votes
    if counted ≥ majority then
      pure (n.becomeLeader, none)
    else
      pure (n, some counted)

/-- The loop of `advanceCommitIndexLocked`, from a candidate index downwards: the first index of the
current term that a quorum matches. -/
def findCommit (n : Node) : ℕ → Int → Section (Option Int)
  | 0, _ => pure none
  | fuel + 1, candidate =>
    if candidate > n.commitIndex then
      match n.entryAt candidate with
      | none => .fault
      | some entry =>
        if entry.term = n.currentTerm ∧
            n.quorumSize ≤ 1 + (n.peers.filter (fun p => n.matchIndex p ≥ candidate)).length then
          pure (some candidate)
        else
          n.findCommit fuel (candidate - 1)
    else
      pure none

/-- `advanceCommitIndexLocked`, with whether the commit index has moved. A failed save degrades the
node and leaves the new commit index in memory. -/
def advanceCommitIndex (n : Node) : Section (Node × Bool) := do
  match ← n.findCommit (n.lastLogIndex - n.commitIndex).toNat n.lastLogIndex with
  | none => pure (n, false)
  | some candidate =>
    let moved := { n with commitIndex := candidate }
    if ← moved.persistHardState then
      pure (moved, true)
    else
      pure (moved.markDegraded, false)

/-- `installSnapshotRequestForPeer`. The first component of an answer from a leader is the request to
send; without one the caller goes on to `appendEntriesRequestForPeer`. -/
def installSnapshotRequestForPeer (n : Node) (peerID : String) :
    Section (Node × Option (Option InstallSnapshotRequest)) :=
  if n.role ≠ .leader then
    pure (n, none)
  else if n.snapshotIndex = 0 ∨ n.nextIndex peerID > n.snapshotIndex then
    pure (n, some none)
  else if n.replicateInFlight peerID then
    pure ({ n with replicatePending := Function.update n.replicatePending peerID true }, some none)
  else
    match n.snapshot with
    | none => .fault
    | some snap =>
      let req : InstallSnapshotRequest :=
        { term := n.currentTerm, leaderID := n.id
          lastIncludedIndex := snap.lastIncludedIndex, lastIncludedTerm := snap.lastIncludedTerm
          config := snap.config, data := snap.data }
      pure ({ n with replicateInFlight := Function.update n.replicateInFlight peerID true },
        some (some req))

/-- The slice `n.log[nextIndex-n.snapshotIndex-1:]`; `none` where it panics. -/
def entriesFrom (n : Node) (nextIndex : Int) : Option (List LogEntry) :=
  if nextIndex - n.snapshotIndex - 1 < 0 ∨ n.log.length < nextIndex - n.snapshotIndex - 1 then none
  else some (n.log.drop (nextIndex - n.snapshotIndex - 1).toNat)

/-- The entries that `appendEntriesRequestForPeer` sends from a next index on; `none` where copying them
panics. -/
def entriesToSend (n : Node) (nextIndex : Int) : Option (List LogEntry) :=
  if nextIndex ≤ n.lastLogIndex then n.entriesFrom nextIndex else some []

/-- The term that `appendEntriesRequestForPeer` puts at `PrevLogIndex`; `none` where reading it
panics. -/
def prevLogTerm (n : Node) (prevLogIndex : Int) : Option Int :=
  if prevLogIndex > n.snapshotIndex then (n.entryAt prevLogIndex).map LogEntry.term
  else if prevLogIndex = n.snapshotIndex then some n.snapshotTerm
  else some 0

/-- The request that `appendEntriesRequestForPeer` builds from a next index; `none` where building it
panics. -/
def appendEntriesRequest (n : Node) (nextIndex : Int) : Option AppendEntriesRequest := do
  let prevLogTerm ← n.prevLogTerm (nextIndex - 1)
  let entries ← n.entriesToSend nextIndex
  pure {
    term := n.currentTerm
    leaderID := n.id
    prevLogIndex := nextIndex - 1
    prevLogTerm := prevLogTerm
    entries := entries
    leaderCommit := n.commitIndex }

/-- `appendEntriesRequestForPeer`. -/
def appendEntriesRequestForPeer (n : Node) (peerID : String) :
    Section (Node × Option (Option AppendEntriesRequest)) :=
  if n.role ≠ .leader then
    pure (n, none)
  else if n.replicateInFlight peerID then
    pure ({ n with replicatePending := Function.update n.replicatePending peerID true }, some none)
  else
    match n.appendEntriesRequest (max 1 (n.nextIndex peerID)) with
    | none => .fault
    | some req =>
      pure ({ n with replicateInFlight := Function.update n.replicateInFlight peerID true },
        some (some req))

/-- The next index to try after a rejection. -/
def backOff (n : Node) (peerID : String) (resp : AppendEntriesResponse) : Int :=
  let prevNext := n.nextIndex peerID
  let hinted :=
    if resp.conflictTerm > 0 then
      if n.lastIndexOfTerm resp.conflictTerm > 0 then n.lastIndexOfTerm resp.conflictTerm + 1
      else if resp.conflictIndex > 0 then resp.conflictIndex
      else if prevNext > 1 then prevNext - 1
      else prevNext
    else if resp.conflictIndex > 0 then resp.conflictIndex
    else if prevNext > 1 then prevNext - 1
    else 1
  let positive := if hinted < 1 then 1 else hinted
  if positive ≥ prevNext ∧ prevNext > 1 then prevNext - 1 else positive

/-- What `sendAppendEntries` still has to signal once it has released the mutex. -/
structure Signals where
  apply : Bool
  replicate : Bool
  deriving DecidableEq, Repr

/-- No signals. -/
def Signals.none : Signals := { apply := false, replicate := false }

/-- The progress that `sendAppendEntries` and `sendInstallSnapshot` record for a peer. -/
def recordProgress (n : Node) (peerID : String) (matched : Int) : Node :=
  { n with
    matchIndex := Function.update n.matchIndex peerID (max (n.matchIndex peerID) matched)
    nextIndex := Function.update n.nextIndex peerID (max (n.nextIndex peerID) (matched + 1)) }

/-- The response section of `sendAppendEntries`. -/
def handleAppendEntriesResponse (n : Node) (peerID : String) (req : AppendEntriesRequest)
    (resp : AppendEntriesResponse) : Section (Node × Signals) :=
  if resp.term > n.currentTerm then do
    let moved ← n.stepDown resp.term
    pure (moved, .none)
  else if n.role ≠ .leader then
    pure (n, .none)
  else if req.term ≠ n.currentTerm then
    pure (n, .none)
  else if resp.success = false then
    pure ({ n with nextIndex := Function.update n.nextIndex peerID (n.backOff peerID resp) },
      { apply := false, replicate := true })
  else do
    let (moved, advanced) ←
      (n.recordProgress peerID (req.prevLogIndex + req.entries.length)).advanceCommitIndex
    pure (moved, { apply := advanced, replicate := decide (0 < req.entries.length) })

/-- The response section of `sendInstallSnapshot`. -/
def handleInstallSnapshotResponse (n : Node) (peerID : String) (req : InstallSnapshotRequest)
    (resp : InstallSnapshotResponse) : Section Node :=
  if resp.term > n.currentTerm then
    n.stepDown resp.term
  else if n.role ≠ .leader ∨ req.term ≠ n.currentTerm then
    pure n
  else
    pure (n.recordProgress peerID req.lastIncludedIndex).signalReplicate

/-- The locked part of the deferred function of `sendAppendEntries` and `sendInstallSnapshot`; the answer is
whether the function still has to call `notifyReplicate`. -/
def releaseFlight (n : Node) (peerID : String) : Node × Bool :=
  ({ n with
      replicateInFlight := Function.update n.replicateInFlight peerID false
      replicatePending := Function.update n.replicatePending peerID false },
    n.replicatePending peerID)

/-- `StartCommand`; the answer of an accepting leader is the index of the command. -/
def startCommand (n : Node) (cmd : Bytes) : Section (Node × Option Int) :=
  if n.degraded ∨ n.role ≠ .leader then
    pure (n, none)
  else do
    let entry : LogEntry := { term := n.currentTerm, type := entryCommand, command := cmd }
    let appended := { n with log := n.log ++ [entry] }
    if ← persistAppendLog [entry] then
      let index := appended.lastLogIndex
      let progressed := { appended with
        matchIndex := Function.update n.matchIndex n.id index
        nextIndex := Function.update n.nextIndex n.id (index + 1) }
      let (moved, advanced) ← progressed.advanceCommitIndex
      pure ((if advanced then moved.notifyApply else moved).signalReplicate, some index)
    else
      match appended.logTo n.log.length with
      | none => .fault
      | some kept => pure ({ appended with log := kept }, none)

/-- The in-memory half of `Snapshot`. -/
def compactTo (n : Node) (snap : Snapshot) : Node :=
  { n with
    log := n.log.drop (snap.lastIncludedIndex - n.snapshotIndex).toNat
    snapshotIndex := snap.lastIncludedIndex
    snapshotTerm := snap.lastIncludedTerm
    snapshot := some snap }

/-- `Snapshot`: compact the log up to and including an index. The result of the last storage call is
ignored. -/
def takeSnapshot (n : Node) (index : Int) (data : Bytes) : Section (Node × Except RaftError Unit) :=
  if index ≤ n.snapshotIndex then
    pure (n, .ok ())
  else if index > n.lastLogIndex then
    pure (n, .error (.snapshotBeyondLog index n.lastLogIndex))
  else
    match n.entryAt index with
    | none => .fault
    | some entry => do
      let snap : Snapshot :=
        { lastIncludedIndex := index, lastIncludedTerm := entry.term, config := n.config, data := data }
      if ← persistSnapshot snap then
        let _ ← (n.compactTo snap).persistCompactLog
        pure (n.compactTo snap, .ok ())
      else
        pure (n, .error .storage)

/-- The draining section of `runApplyLoop`: take the pending snapshot, if there is one. -/
def takePendingSnapshot (n : Node) : Node × Option Snapshot :=
  ({ n with pendingSnapshot := none }, n.pendingSnapshot)

/-- The section of `runApplyLoop` after a snapshot was sent. -/
def snapshotApplied (n : Node) (snap : Snapshot) : Node :=
  { n with
    lastApplied := if snap.lastIncludedIndex > n.lastApplied then snap.lastIncludedIndex else n.lastApplied }

/-- The picking section of `runApplyLoop`: the next committed entry and its index, if there is one. -/
def nextToApply (n : Node) : Section (Node × Option (LogEntry × Int)) :=
  if n.lastApplied ≥ n.commitIndex then
    pure (n, none)
  else if n.lastApplied + 1 > n.lastLogIndex then
    pure (n, none)
  else
    match n.entryAt (n.lastApplied + 1) with
    | none => .fault
    | some entry => pure ({ n with lastApplied := n.lastApplied + 1 }, some (entry, n.lastApplied + 1))

end Node

end ConsensusLab.Raft
