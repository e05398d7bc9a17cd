import ConsensusLab.Raft.Node

/-!
# The RPC handlers

`HandleRequestVote`, `HandleAppendEntries` and `HandleInstallSnapshot`. Each holds the
mutex throughout, so each is one section. The node is passed along as a value; where a
storage call fails, the value returned shows which changes the source takes back and
which it leaves in memory.
-/

namespace ConsensusLab.Raft

namespace Node

/-- `resetElectionTimeout`. -/
def resetElectionTimeout (n : Node) : Node :=
  { n with electionTimeoutReset := true }

/-- `notifyApply`. -/
def notifyApply (n : Node) : Node :=
  { n with applyNotify := true }

/-- `notifyReplicate`. -/
def signalReplicate (n : Node) : Node :=
  { n with replicateNotify := true }

/-- The order in which votes compare a candidate's log with the node's own. -/
def upToDate (n : Node) (req : RequestVoteRequest) : Prop :=
  req.lastLogTerm > n.lastLogTerm ∨
    (req.lastLogTerm = n.lastLogTerm ∧ req.lastLogIndex ≥ n.lastLogIndex)

instance (n : Node) (req : RequestVoteRequest) : Decidable (n.upToDate req) :=
  inferInstanceAs (Decidable (_ ∨ _))

/-- The end of `HandleRequestVote`: decide on the vote in the current term. -/
def castVote (n : Node) (req : RequestVoteRequest) :
    Section (Node × Except RaftError RequestVoteResponse) :=
  if (n.votedFor = "" ∨ n.votedFor = req.candidateID) ∧ n.upToDate req then do
    let voted := { n with votedFor := req.candidateID }
    if ← voted.persistHardState then
      pure (voted.resetElectionTimeout, .ok { term := n.currentTerm, voteGranted := true })
    else
      pure ({ voted with votedFor := n.votedFor }, .error .storage)
  else
    pure (n, .ok { term := n.currentTerm, voteGranted := false })

/-- `HandleRequestVote`. -/
def handleRequestVote (n : Node) (req : RequestVoteRequest) :
    Section (Node × Except RaftError RequestVoteResponse) :=
  if n.degraded then
    pure (n, .error .nodeDegraded)
  else if req.term < n.currentTerm then
    pure (n, .ok { term := n.currentTerm, voteGranted := false })
  else if req.term > n.currentTerm then do
    let moved := { n with currentTerm := req.term, votedFor := "", role := .follower }
    if ← moved.persistHardState then
      moved.castVote req
    else
      pure ({ moved with currentTerm := n.currentTerm, votedFor := n.votedFor, role := n.role },
        .error .storage)
  else
    n.castVote req

/-- An unsuccessful `AppendEntriesResponse` with its conflict hints. -/
def rejection (n : Node) (conflictTerm conflictIndex : Int) : AppendEntriesResponse where
  term := n.currentTerm
  success := false
  conflictTerm := conflictTerm
  conflictIndex := conflictIndex

/-- The successful `AppendEntriesResponse`. -/
def acceptance (n : Node) : AppendEntriesResponse where
  term := n.currentTerm
  success := true
  conflictTerm := 0
  conflictIndex := 0

/-- The consistency check of `HandleAppendEntries` at `PrevLogIndex`: the rejection to send, if any.
Below the snapshot nothing is checked. -/
def checkPrevLog (n : Node) (req : AppendEntriesRequest) : Section (Option AppendEntriesResponse) :=
  if req.prevLogIndex > n.lastLogIndex then
    pure (some (n.rejection 0 (n.lastLogIndex + 1)))
  else if req.prevLogIndex > n.snapshotIndex then
    match n.entryAt req.prevLogIndex with
    | none => .fault
    | some prev =>
      if prev.term ≠ req.prevLogTerm then
        pure (some (n.rejection prev.term (n.firstIndexOfTerm prev.term)))
      else
        pure none
  else if req.prevLogIndex = n.snapshotIndex then
    if req.prevLogTerm ≠ n.snapshotTerm then
      pure (some (n.rejection 0 (n.snapshotIndex + 1)))
    else
      pure none
  else
    pure none

/-- The loop of `HandleAppendEntries` over the request's entries, the first of which has the given
index. -/
def mergeEntries (n : Node) (index : Int) : List LogEntry → Section (Node × Except RaftError Unit)
  | [] => pure (n, .ok ())
  | entry :: rest =>
    if index ≤ n.snapshotIndex then
      n.mergeEntries (index + 1) rest
    else if index > n.lastLogIndex then do
      if ← persistAppendLog (entry :: rest) then
        pure ({ n with log := n.log ++ entry :: rest }, .ok ())
      else
        pure (n, .error .storage)
    else
      match n.entryAt index with
      | none => .fault
      | some own =>
        if own.term = entry.term then
          n.mergeEntries (index + 1) rest
        else do
          if ← n.persistTruncateLog index then
            match n.logTo (index - n.snapshotIndex - 1) with
            | none => .fault
            | some kept =>
              let cut := { n with log := kept }
              if ← persistAppendLog (entry :: rest) then
                pure ({ cut with log := cut.log ++ entry :: rest }, .ok ())
              else
                pure (cut, .error .storage)
          else
            pure (n, .error .storage)

/-- The commit update of `HandleAppendEntries`. A failed save leaves the new commit index in
memory. -/
def followCommit (n : Node) (leaderCommit : Int) : Section (Node × Except RaftError Unit) :=
  if leaderCommit > n.commitIndex then do
    let moved := { n with
      commitIndex := if leaderCommit < n.lastLogIndex then leaderCommit else n.lastLogIndex }
    if ← moved.persistHardState then
      pure (moved.notifyApply, .ok ())
    else
      pure (moved, .error .storage)
  else
    pure (n, .ok ())

/-- `HandleAppendEntries` after the term comparison. -/
def appendFromLeader (n : Node) (req : AppendEntriesRequest) :
    Section (Node × Except RaftError AppendEntriesResponse) := do
  let following := { n with role := .follower }.resetElectionTimeout
  match ← following.checkPrevLog req with
  | some conflict => pure (following, .ok conflict)
  | none =>
    match ← following.mergeEntries (req.prevLogIndex + 1) req.entries with
    | (merged, .error e) => pure (merged, .error e)
    | (merged, .ok ()) =>
      match ← merged.followCommit req.leaderCommit with
      | (final, .error e) => pure (final, .error e)
      | (final, .ok ()) =>
        pure (final, .ok n.acceptance)

/-- `HandleAppendEntries`. -/
def handleAppendEntries (n : Node) (req : AppendEntriesRequest) :
    Section (Node × Except RaftError AppendEntriesResponse) :=
  if n.degraded then
    pure (n, .error .nodeDegraded)
  else if req.term < n.currentTerm then
    pure (n, .ok (n.rejection 0 0))
  else if req.term > n.currentTerm then do
    let moved := { n with currentTerm := req.term, votedFor := "" }
    if ← moved.persistHardState then
      moved.appendFromLeader req
    else
      pure ({ moved with currentTerm := n.currentTerm, votedFor := n.votedFor }, .error .storage)
  else
    n.appendFromLeader req

/-- The in-memory half of `applySnapshotLocked`: entries behind the snapshot are kept whatever their
terms are. -/
def adoptSnapshot (n : Node) (snap : Snapshot) : Node :=
  { n with
    log :=
      if snap.lastIncludedIndex < n.lastLogIndex then
        n.log.drop (snap.lastIncludedIndex - n.snapshotIndex).toNat
      else []
    snapshotIndex := snap.lastIncludedIndex
    snapshotTerm := snap.lastIncludedTerm
    snapshot := some snap
    commitIndex := if n.commitIndex < snap.lastIncludedIndex then snap.lastIncludedIndex else n.commitIndex
    config := if 0 < snap.config.members.length then snap.config else n.config
    pendingSnapshot := if snap.lastIncludedIndex > n.lastApplied then some snap else n.pendingSnapshot }

/-- The entries that `applySnapshotLocked` keeps; `none` where its slice of the log panics. -/
def logBehind (n : Node) (snap : Snapshot) : Option (List LogEntry) :=
  if snap.lastIncludedIndex < n.lastLogIndex then
    if snap.lastIncludedIndex - n.snapshotIndex > 0 then n.logFrom (snap.lastIncludedIndex - n.snapshotIndex)
    else some n.log
  else some []

/-- `applySnapshotLocked`. The results of both storage calls are ignored. -/
def applySnapshot (n : Node) (snap : Snapshot) : Section Node :=
  match n.logBehind snap with
  | none => .fault
  | some kept => do
    let adopted := { n.adoptSnapshot snap with log := kept }
    if 0 < snap.config.members.length then
      let _ ← adopted.persistHardState
      let _ ← adopted.persistCompactLog
      pure adopted
    else
      let _ ← adopted.persistCompactLog
      pure adopted

/-- `HandleInstallSnapshot` after the term comparison. -/
def installFromLeader (n : Node) (req : InstallSnapshotRequest) :
    Section (Node × Except RaftError InstallSnapshotResponse) := do
  let following := { n with role := .follower }.resetElectionTimeout
  if req.lastIncludedIndex < n.snapshotIndex then
    pure (following, .ok { term := n.currentTerm })
  else if req.lastIncludedIndex = n.snapshotIndex ∧ req.lastIncludedTerm = n.snapshotTerm then
    pure (following, .ok { term := n.currentTerm })
  else
    let snap : Snapshot :=
      { lastIncludedIndex := req.lastIncludedIndex, lastIncludedTerm := req.lastIncludedTerm,
        config := req.config, data := req.data }
    if ← persistSnapshot snap then
      let installed ← following.applySnapshot snap
      pure (installed.notifyApply, .ok { term := n.currentTerm })
    else
      pure (following, .error .storage)

/-- `HandleInstallSnapshot`. -/
def handleInstallSnapshot (n : Node) (req : InstallSnapshotRequest) :
    Section (Node × Except RaftError InstallSnapshotResponse) :=
  if n.degraded then
    pure (n, .error .nodeDegraded)
  else if req.term < n.currentTerm then
    pure (n, .ok { term := n.currentTerm })
  else if req.term > n.currentTerm then do
    let moved := { n with currentTerm := req.term, votedFor := "" }
    if ← moved.persistHardState then
      moved.installFromLeader req
    else
      pure ({ moved with currentTerm := n.currentTerm, votedFor := n.votedFor }, .error .storage)
  else
    n.installFromLeader req

end Node

end ConsensusLab.Raft
