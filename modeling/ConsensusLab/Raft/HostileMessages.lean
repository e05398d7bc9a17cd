import ConsensusLab.Raft.HandlerRules
import ConsensusLab.Raft.ReplicationRules
import ConsensusLab.Raft.Server
import Mathlib.Algebra.Ring.Int.Defs

/-!
# Messages from anyone

The port on which a node listens for its peers is open to everybody, so the numbers in a
request may be anything. Each access to the log and each slice of it is in range
nevertheless, because of the comparisons made before it and because the snapshot never
gets ahead of the commit index. Storage may fail at any time. Terms are compared and
copied only, so nothing here depends on their values.
-/

namespace ConsensusLab.Raft

open Foundation StorageProgram

namespace Node

variable {n n' : Node} {bound : Int}

/-- The snapshot is committed and lies between the start of the log and a bound. -/
structure InBounds (bound : Int) (n : Node) : Prop where
  start : 0 ≤ n.snapshotIndex
  committed : n.snapshotIndex ≤ n.commitIndex
  bounded : n.snapshotIndex ≤ bound

/-- Only the positions of the snapshot and of the commit index matter. -/
theorem InBounds.keep (h : n.InBounds bound) (hindex : n'.snapshotIndex = n.snapshotIndex)
    (hcommit : n'.commitIndex = n.commitIndex) : n'.InBounds bound :=
  ⟨hindex ▸ h.start, hindex ▸ hcommit ▸ h.committed, hindex ▸ h.bounded⟩

/-- A later commit index does no harm. -/
theorem InBounds.commit (h : n.InBounds bound) {index : Int} (hle : n.snapshotIndex ≤ index) :
    ({ n with commitIndex := index } : Node).InBounds bound :=
  ⟨h.start, hle, h.bounded⟩

/-- The snapshot does not reach behind the log. -/
theorem snapshotIndex_le_lastLogIndex (n : Node) : n.snapshotIndex ≤ n.lastLogIndex := by
  unfold lastLogIndex
  omega

section Calls

variable {post : Bool → Prop}

/-- Saving the hard state may fail. -/
@[simp] theorem total_persistHardState (n : Node) : n.persistHardState.Total post ↔ ∀ ok, post ok := Iff.rfl

/-- Appending to the stored log may fail. -/
@[simp] theorem total_persistAppendLog (entries : List LogEntry) :
    (persistAppendLog entries).Total post ↔ ∀ ok, post ok := Iff.rfl

/-- Truncating the stored log may fail. -/
@[simp] theorem total_persistTruncateLog (n : Node) (fromIndex : Int) :
    (n.persistTruncateLog fromIndex).Total post ↔ ∀ ok, post ok := Iff.rfl

/-- Saving a snapshot may fail. -/
@[simp] theorem total_persistSnapshot (snap : Snapshot) : (persistSnapshot snap).Total post ↔ ∀ ok, post ok := Iff.rfl

/-- Replacing the stored log may fail. -/
@[simp] theorem total_persistCompactLog (n : Node) : n.persistCompactLog.Total post ↔ ∀ ok, post ok := Iff.rfl

end Calls

/-- A vote leaves the log alone. -/
theorem castVote_total (h : n.InBounds bound) (req : RequestVoteRequest) :
    (n.castVote req).Total fun r => r.1.InBounds bound := by
  simp only [castVote, total_ite, total_bind, total_persistHardState, total_pure]
  exact ⟨fun _ ok => ⟨fun _ => h.keep rfl rfl, fun _ => h.keep rfl rfl⟩, fun _ => h⟩

/-- So does a vote request. -/
theorem handleRequestVote_total (h : n.InBounds bound) (req : RequestVoteRequest) :
    (n.handleRequestVote req).Total fun r => r.1.InBounds bound := by
  simp only [handleRequestVote, total_ite, total_bind, total_persistHardState, total_pure]
  refine ⟨fun _ => h, fun _ => ⟨fun _ => h, fun _ => ⟨fun _ ok => ⟨fun _ => ?_, fun _ => h.keep rfl rfl⟩, fun _ => ?_⟩⟩⟩
  · exact castVote_total (n := { n.adoptTerm req.term with role := .follower }) (h.keep rfl rfl) req
  · exact castVote_total h req

/-- The preceding entry is read within the log. -/
theorem checkPrevLog_total (n : Node) (req : AppendEntriesRequest) : (n.checkPrevLog req).Total fun _ => True := by
  simp only [checkPrevLog, total_ite, total_pure, implies_true, true_and, and_true]
  intro hreached hbehind
  obtain ⟨own, hown⟩ := exists_entryAt (n := n) (i := req.prevLogIndex) (by omega) (by omega)
  simp only [hown, total_ite, total_pure, implies_true, and_self]

/-- The entries are compared and the log is cut within it. -/
theorem mergeEntries_total (h : n.InBounds bound) (index : Int) (entries : List LogEntry) :
    (n.mergeEntries index entries).Total fun r => r.1.InBounds bound := by
  induction entries generalizing index with
  | nil => exact h
  | cons entry rest ih =>
    simp only [mergeEntries, total_ite, total_bind, total_persistAppendLog, total_pure]
    refine ⟨fun _ => ih (index + 1), fun hbehind => ⟨fun _ ok => ⟨fun _ => h.keep rfl rfl, fun _ => h⟩, fun hend => ?_⟩⟩
    obtain ⟨own, hown⟩ := exists_entryAt (n := n) (i := index) (by omega) (by omega)
    simp only [hown, logTo_of_lt (n := n) (i := index) (by omega) (by omega), total_ite, total_bind,
      total_persistTruncateLog, total_persistAppendLog, total_pure]
    exact ⟨fun _ => ih (index + 1), fun _ ok => ⟨fun _ ok' => ⟨fun _ => h.keep rfl rfl, fun _ => h.keep rfl rfl⟩,
      fun _ => h⟩⟩

/-- The commit index stays behind the snapshot, though not necessarily where it was. -/
theorem followCommit_total (h : n.InBounds bound) (leaderCommit : Int) :
    (n.followCommit leaderCommit).Total fun r => r.1.InBounds bound := by
  have hlast := n.snapshotIndex_le_lastLogIndex
  have hcommitted := h.committed
  simp only [followCommit, total_ite, total_bind, total_persistHardState, total_pure]
  refine ⟨fun hmove ok => ?_, fun _ => h⟩
  have hmoved : ({ n with commitIndex := if leaderCommit < n.lastLogIndex then leaderCommit else n.lastLogIndex } :
      Node).InBounds bound := h.commit (by split <;> omega)
  exact ⟨fun _ => hmoved.keep rfl rfl, fun _ => hmoved⟩

/-- Taking entries from anyone in the current term. -/
theorem appendFromLeader_total (h : n.InBounds bound) (req : AppendEntriesRequest) :
    (n.appendFromLeader req).Total fun r => r.1.InBounds bound := by
  have hfollowing : n.asFollower.InBounds bound := h.keep rfl rfl
  simp only [appendFromLeader, total_bind]
  refine (checkPrevLog_total n.asFollower req).mono fun check _ => ?_
  cases check with
  | some conflict => exact hfollowing
  | none =>
    simp only [total_bind]
    refine (mergeEntries_total hfollowing _ _).mono fun r hmerged => ?_
    obtain ⟨merged, e | u⟩ := r
    · exact hmerged
    · simp only [total_bind]
      refine (followCommit_total hmerged _).mono fun r' hfinal => ?_
      obtain ⟨final, e | u⟩ := r'
      · exact hfinal
      · exact hfinal

/-- Taking entries from anyone. -/
theorem handleAppendEntries_total (h : n.InBounds bound) (req : AppendEntriesRequest) :
    (n.handleAppendEntries req).Total fun r => r.1.InBounds bound := by
  simp only [handleAppendEntries, total_ite, total_bind, total_persistHardState, total_pure]
  refine ⟨fun _ => h, fun _ => ⟨fun _ => h, fun _ => ⟨fun _ ok => ⟨fun _ => ?_, fun _ => h.keep rfl rfl⟩, fun _ => ?_⟩⟩⟩
  · exact appendFromLeader_total (n := n.adoptTerm req.term) (h.keep rfl rfl) req
  · exact appendFromLeader_total h req

/-- The log is cut within it when a snapshot is applied, and the commit index follows the snapshot. -/
theorem applySnapshot_total (h : n.InBounds bound) {snap : Snapshot} (hle : n.snapshotIndex ≤ snap.lastIncludedIndex)
    (hbound : snap.lastIncludedIndex ≤ bound) : (n.applySnapshot snap).Total (InBounds bound) := by
  have hstart := h.start
  have hadopted : (n.adoptSnapshot snap).InBounds bound := by
    refine ⟨Int.le_trans hstart hle, ?_, hbound⟩
    simp only [adoptSnapshot]
    split <;> omega
  simp only [applySnapshot, logBehind_eq, total_ite, total_bind, total_persistHardState, total_persistCompactLog,
    total_pure]
  exact ⟨fun _ _ _ => hadopted, fun _ _ => hadopted⟩

/-- Taking a snapshot from anyone in the current term. -/
theorem installFromLeader_total (h : n.InBounds bound) {req : InstallSnapshotRequest}
    (hbound : req.lastIncludedIndex ≤ bound) : (n.installFromLeader req).Total fun r => r.1.InBounds bound := by
  have hfollowing : n.asFollower.InBounds bound := h.keep rfl rfl
  simp only [installFromLeader, total_ite, total_bind, total_persistSnapshot, total_pure]
  refine ⟨fun _ => hfollowing, fun hnew => ⟨fun _ => hfollowing, fun _ ok => ⟨fun _ => ?_, fun _ => hfollowing⟩⟩⟩
  have happly : (n.asFollower.applySnapshot req.snapshot).Total (InBounds bound) :=
    applySnapshot_total hfollowing (Int.not_lt.mp hnew) hbound
  exact happly.mono fun _ hinstalled => hinstalled.keep rfl rfl

/-- Taking a snapshot from anyone. -/
theorem handleInstallSnapshot_total (h : n.InBounds bound) {req : InstallSnapshotRequest}
    (hbound : req.lastIncludedIndex ≤ bound) : (n.handleInstallSnapshot req).Total fun r => r.1.InBounds bound := by
  simp only [handleInstallSnapshot, total_ite, total_bind, total_persistHardState, total_pure]
  refine ⟨fun _ => h, fun _ => ⟨fun _ => h, fun _ => ⟨fun _ ok => ⟨fun _ => ?_, fun _ => h.keep rfl rfl⟩, fun _ => ?_⟩⟩⟩
  · exact installFromLeader_total (n := n.adoptTerm req.term) (h.keep rfl rfl) hbound
  · exact installFromLeader_total h hbound

/-- The search for a commit index stays within the log. -/
theorem findCommit_total (hcommitted : n.snapshotIndex ≤ n.commitIndex) (fuel : ℕ) {index : Int}
    (hindex : index ≤ n.lastLogIndex) : (n.findCommit fuel index).Total fun found => ∀ i, found = some i →
      n.commitIndex < i := by
  induction fuel generalizing index with
  | zero => exact nofun
  | succ fuel ih =>
    simp only [findCommit, total_ite, total_pure]
    refine ⟨fun hfresh => ?_, fun _ => nofun⟩
    obtain ⟨entry, hentry⟩ := exists_entryAt (n := n) (i := index) (by omega) hindex
    simp only [hentry, total_ite, total_pure]
    refine ⟨fun _ i hi => ?_, fun _ => ih (by omega)⟩
    cases hi
    exact hfresh

/-- Advancing the commit index. -/
theorem advanceCommitIndex_total (h : n.InBounds bound) : n.advanceCommitIndex.Total fun r => r.1.InBounds bound := by
  simp only [advanceCommitIndex, total_bind]
  refine (findCommit_total h.committed _ (Int.le_refl _)).mono fun found hfound => ?_
  cases found with
  | none => exact h
  | some index =>
    have hmoved : ({ n with commitIndex := index } : Node).InBounds bound :=
      h.commit (Int.le_trans h.committed (Int.le_of_lt (hfound index rfl)))
    simp only [total_bind, total_persistHardState, total_ite, total_pure]
    exact fun ok => ⟨fun _ => hmoved, fun _ => hmoved.keep rfl rfl⟩

/-- Starting a command. -/
theorem startCommand_total (h : n.InBounds bound) (cmd : Bytes) :
    (n.startCommand cmd).Total fun r => r.1.InBounds bound := by
  have hadvance : ∀ m : Node, m.InBounds bound → m.advanceCommitIndex.Total fun moved =>
      (if moved.2 then moved.1.notifyApply else moved.1).signalReplicate.InBounds bound := by
    intro m hm
    refine (advanceCommitIndex_total hm).mono fun moved hmoved => ?_
    split <;> exact hmoved.keep rfl rfl
  simp only [startCommand, logTo_append, total_ite, total_bind, total_persistAppendLog, total_pure]
  exact ⟨fun _ => h, fun _ ok => ⟨fun _ => hadvance _ (h.keep rfl rfl), fun _ => h.keep rfl rfl⟩⟩

/-- Stepping down. -/
theorem stepDown_total (h : n.InBounds bound) (term : Int) : (n.stepDown term).Total (InBounds bound) := by
  simp only [stepDown, total_bind, total_persistHardState, total_ite, total_pure]
  exact fun ok => ⟨fun _ => h.keep rfl rfl, fun _ => h.keep rfl rfl⟩

/-- Starting an election. -/
theorem startElection_total (h : n.InBounds bound) : n.startElection.Total fun r => r.1.InBounds bound := by
  simp only [startElection, total_bind, total_persistHardState, total_ite, total_pure]
  exact fun ok => ⟨fun _ => h.keep rfl rfl, fun _ => h.keep rfl rfl⟩

/-- Counting a vote. -/
theorem handleVoteResponse_total (h : n.InBounds bound) (votes majority : ℕ) (resp : RequestVoteResponse) :
    (n.handleVoteResponse votes majority resp).Total fun r => r.1.InBounds bound := by
  simp only [handleVoteResponse, total_ite, total_bind, total_pure]
  refine ⟨fun _ => stepDown_total h _, fun _ => ⟨fun _ => h, fun _ => ?_⟩⟩
  exact ⟨fun _ => h.keep rfl rfl, fun _ => h⟩

/-- Processing an AppendEntries response. -/
theorem handleAppendEntriesResponse_total (h : n.InBounds bound) (peerID : String) (req : AppendEntriesRequest)
    (resp : AppendEntriesResponse) :
    (n.handleAppendEntriesResponse peerID req resp).Total fun r => r.1.InBounds bound := by
  simp only [handleAppendEntriesResponse, total_ite, total_bind, total_pure]
  refine ⟨fun _ => stepDown_total h _, fun _ => ⟨fun _ => h, fun _ => ⟨fun _ => h, fun _ =>
    ⟨fun _ => h.keep rfl rfl, fun _ => ?_⟩⟩⟩⟩
  exact advanceCommitIndex_total (n := n.recordProgress peerID _) (h.keep rfl rfl)

/-- Processing an InstallSnapshot response. -/
theorem handleInstallSnapshotResponse_total (h : n.InBounds bound) (peerID : String) (req : InstallSnapshotRequest)
    (resp : InstallSnapshotResponse) : (n.handleInstallSnapshotResponse peerID req resp).Total (InBounds bound) := by
  simp only [handleInstallSnapshotResponse, total_ite, total_pure]
  exact ⟨fun _ => stepDown_total h _, fun _ => ⟨fun _ => h, fun _ => h.keep rfl rfl⟩⟩

end Node

/-- What happens to a node whose log is not compacted locally: requests from anyone, elections, answers from
anyone and commands. -/
inductive NodeCall
  | receive (req : Request)
  | timeout
  | startElection
  | voteAnswer (votes majority : ℕ) (resp : RequestVoteResponse)
  | appendAnswer (peerID : String) (req : AppendEntriesRequest) (resp : AppendEntriesResponse)
  | installAnswer (peerID : String) (req : InstallSnapshotRequest) (resp : InstallSnapshotResponse)
  | startCommand (cmd : Bytes)

/-- The section of a call, up to its answer. -/
def NodeCall.program (n : Node) : NodeCall → Section Node
  | .receive req => do
    let (n', _) ← n.handle req
    pure n'
  | .timeout => pure n.convertToCandidate
  | .startElection => do
    let (n', _) ← n.startElection
    pure n'
  | .voteAnswer votes majority resp => do
    let (n', _) ← n.handleVoteResponse votes majority resp
    pure n'
  | .appendAnswer peerID req resp => do
    let (n', _) ← n.handleAppendEntriesResponse peerID req resp
    pure n'
  | .installAnswer peerID req resp => n.handleInstallSnapshotResponse peerID req resp
  | .startCommand cmd => do
    let (n', _) ← n.startCommand cmd
    pure n'

/-- No snapshot that is sent reaches behind a bound. -/
def NodeCall.Bounded (bound : Int) : NodeCall → Prop
  | .receive (.install req) => req.lastIncludedIndex ≤ bound
  | _ => True

/-- A new node after calls, during which storage may fail. -/
inductive CalledNode (id : String) (peers : List String) (bound : Int) : Node → PersistentState → Prop
  | new : CalledNode id peers bound (newNode id peers .empty) .empty
  | call {n n' : Node} {disk disk' : PersistentState} (h : CalledNode id peers bound n disk) {c : NodeCall}
      (hbounded : c.Bounded bound) {fates : List Fate} (hrun : (c.program n).run fates disk = (.returned n', disk')) :
      CalledNode id peers bound n' disk'

/-- Every call is in range and keeps the snapshot in bounds. -/
theorem NodeCall.total {c : NodeCall} {n : Node} {bound : Int} (hbounded : c.Bounded bound) (h : n.InBounds bound) :
    (c.program n).Total (Node.InBounds bound) := by
  cases c with
  | receive req =>
    cases req with
    | vote req =>
      simp only [NodeCall.program, Node.handle, total_bind, total_pure]
      exact Node.handleRequestVote_total h req
    | append req =>
      simp only [NodeCall.program, Node.handle, total_bind, total_pure]
      exact Node.handleAppendEntries_total h req
    | install req =>
      simp only [NodeCall.program, Node.handle, total_bind, total_pure]
      exact Node.handleInstallSnapshot_total h hbounded
  | timeout => exact h.keep rfl rfl
  | startElection =>
    simp only [NodeCall.program, total_bind, total_pure]
    exact Node.startElection_total h
  | voteAnswer votes majority resp =>
    simp only [NodeCall.program, total_bind, total_pure]
    exact Node.handleVoteResponse_total h votes majority resp
  | appendAnswer peerID req resp =>
    simp only [NodeCall.program, total_bind, total_pure]
    exact Node.handleAppendEntriesResponse_total h peerID req resp
  | installAnswer peerID req resp => exact Node.handleInstallSnapshotResponse_total h peerID req resp
  | startCommand cmd =>
    simp only [NodeCall.program, total_bind, total_pure]
    exact Node.startCommand_total h cmd

variable {id : String} {peers : List String} {bound : Int} {n : Node} {disk : PersistentState}

/-- The snapshot stays in bounds. -/
theorem CalledNode.inBounds (h : CalledNode id peers bound n disk) (hbound : 0 ≤ bound) : n.InBounds bound := by
  induction h with
  | new => exact ⟨Int.le_refl 0, Int.le_refl 0, hbound⟩
  | call _ hbounded hrun ih => exact (NodeCall.total hbounded ih).of_returned hrun

/-- **Messages from anyone are harmless to the log.** After any calls to a new node, with whatever numbers in
the requests as long as no snapshot reaches behind 2^62, the snapshot lies between 0 and the commit index and
is within that bound, and no further call accesses or slices the log out of range. -/
theorem hostile_messages_in_range (h : CalledNode id peers (2 ^ 62) n disk) :
    0 ≤ n.snapshotIndex ∧ n.snapshotIndex ≤ n.commitIndex ∧ n.snapshotIndex ≤ 2 ^ 62 ∧
      ∀ (c : NodeCall) (fates : List Fate), c.Bounded (2 ^ 62) → ((c.program n).run fates disk).1 ≠ .faulted := by
  have hin := h.inBounds (by decide)
  exact ⟨hin.start, hin.committed, hin.bounded, fun c fates hbounded =>
    (NodeCall.total hbounded hin).not_faulted fates disk⟩

/-- A request with negative numbers and a far commit index. -/
def strangeRequest : AppendEntriesRequest where
  term := 9
  leaderID := ""
  prevLogIndex := -3
  prevLogTerm := -1
  entries := List.replicate 5 { term := -7, type := 200, command := [] }
  leaderCommit := 2 ^ 63 - 1

/-- The strange request leaves a new node in bounds, and nothing that follows is out of range. -/
theorem hostile_messages_in_range_after_strange : ∃ n disk,
    ((NodeCall.receive (.append strangeRequest)).program (newNode "a" ["b"] .empty)).run [] .empty =
        (.returned n, disk) ∧
      n.commitIndex = 2 ∧ n.snapshotIndex ≤ n.commitIndex ∧
      ∀ (c : NodeCall) (fates : List Fate), c.Bounded (2 ^ 62) → ((c.program n).run fates disk).1 ≠ .faulted := by
  have hrun : ∃ n disk, ((NodeCall.receive (.append strangeRequest)).program (newNode "a" ["b"] .empty)).run [] .empty =
      (.returned n, disk) ∧ n.commitIndex = 2 := ⟨_, _, rfl, rfl⟩
  obtain ⟨n, disk, hreturned, hcommit⟩ := hrun
  have hcalled : CalledNode "a" ["b"] (2 ^ 62) n disk :=
    CalledNode.new.call (c := .receive (.append strangeRequest)) trivial hreturned
  have hsafe := hostile_messages_in_range hcalled
  exact ⟨n, disk, hreturned, hcommit, hsafe.2.1, hsafe.2.2.2⟩

end ConsensusLab.Raft
