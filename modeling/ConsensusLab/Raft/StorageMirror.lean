import ConsensusLab.Foundation.StorageCalls
import ConsensusLab.Raft.JSONStorage
import ConsensusLab.Raft.SnapshotPrecedence

/-!
# Storage mirrors the node

Of a node that started on empty storage, and whose storage calls all succeed, the stored
term, vote, log and snapshot position are those in memory after every step, so that
`NewNode` rebuilds them. The calls are followed on both storages: the in-memory one is the
server's disk, and the files of a `JSONStorage` are written alongside. There the mirror
breaks on one kind of step, where a snapshot up to index zero empties an empty log and
leaves a log file that cannot be read.
-/

namespace ConsensusLab.Raft

open Foundation StorageProgram

/-- The call with its slices; an empty log is passed to `SetLog` as the given slice. -/
def StorageCall.op (empty : Slice LogEntry) : StorageCall → StorageOp
  | saveHardState state => .saveHardState state
  | appendLog entries => .appendLog (some entries)
  | truncateLog keepN => .truncateLog keepN
  | setLog baseIndex entries => .setLog baseIndex (if entries = [] then empty else some entries)
  | saveSnapshot snap => .saveSnapshot snap

/-- What an empty log is passed as: `applySnapshotLocked` sets it to nil, `Snapshot` slices it. -/
def Input.emptyLog : Input → Slice LogEntry
  | .takeSnapshot _ _ => some []
  | _ => none

/-- A process over a `JSONStorage`. Its disk stands for the in-memory storage that would have got the same
calls. -/
structure JSONProcess where
  server : Server
  files : JSONStorage

namespace JSONProcess

/-- A process that `NewNode` has made over an empty directory. -/
def first (id : String) (peers : List String) : JSONProcess where
  server := .boot id peers .empty
  files := .fresh

/-- A step in which every storage call succeeds. A process that is restarted or has panicked comes back
with what `Load` returns. -/
def step (p : JSONProcess) (label : ℕ × Input) : Option JSONProcess := do
  let (after, effects) ← p.server.step label.1 [] label.2
  let files ← p.files.performAll ((p.server.performed label.1 [] label.2).map (·.op label.2.emptyLog))
  if label.2 = .restart ∨ effects.lost ≠ none then
    let ps ← files.load
    pure { server := p.server.reboot ps, files := files }
  else
    pure { server := after, files := files }

end JSONProcess

/-- The stored state is the node's, and `NewNode` rebuilds the node's term, vote, snapshot position and log
from it. -/
structure Node.MirroredBy (n : Node) (ps : PersistentState) : Prop where
  base : ps.logBase = n.snapshotIndex
  log : ps.log = n.log
  term : ps.hard.currentTerm = n.currentTerm
  vote : ps.hard.votedFor = n.votedFor
  snapshot : 0 < n.snapshotIndex → ∃ snap ∈ ps.snapshot,
    snap.lastIncludedIndex = n.snapshotIndex ∧ snap.lastIncludedTerm = n.snapshotTerm
  rebuilt : ∀ id peers, (newNode id peers ps).currentTerm = n.currentTerm ∧
    (newNode id peers ps).votedFor = n.votedFor ∧
    (newNode id peers ps).snapshotIndex = n.snapshotIndex ∧
    (newNode id peers ps).snapshotTerm = n.snapshotTerm ∧ (newNode id peers ps).log = n.log

/-- The states that runs over in-memory storage reach, from empty storage and with every call succeeding. -/
abbrev MemoryReachable : Server → Prop :=
  Reachable (fun sv => ∃ id peers, sv = .boot id peers .empty)
    (LabelledStep (fun _ drive => drive.fates = []) Server.drive)

/-- The states that allowed runs over files reach, from an empty directory and with every call succeeding. -/
abbrev JSONReachable (allowed : JSONProcess → ℕ × Input → Prop) : JSONProcess → Prop :=
  Reachable (fun p => ∃ id peers, p = .first id peers) (LabelledStep allowed JSONProcess.step)

/-- No snapshot up to index zero that differs from the node's own is accepted while the log is empty. -/
def Server.InstallsLegibly (sv : Server) (input : Input) : Prop :=
  ∀ req ∈ input.installs, sv.node.AcceptsSnapshot req → req.lastIncludedIndex = 0 →
    req.lastIncludedTerm ≠ sv.node.snapshotTerm → sv.node.log ≠ []

instance (sv : Server) (input : Input) : Decidable (sv.InstallsLegibly input) :=
  inferInstanceAs (Decidable (∀ req ∈ input.installs, _))

/-- The stored log starts at the stored snapshot. -/
structure PersistentState.Aligned (d : PersistentState) : Prop where
  base : d.logBase = d.snapshot.elim 0 Snapshot.lastIncludedIndex
  nonneg : 0 ≤ d.logBase

/-- The disk holds the node's term, vote, log and snapshot position. -/
structure Mirrors (n : Node) (d : PersistentState) : Prop where
  term : d.hard.currentTerm = n.currentTerm
  vote : d.hard.votedFor = n.votedFor
  base : d.logBase = n.snapshotIndex
  log : d.log = n.log
  index : d.snapshot.elim 0 Snapshot.lastIncludedIndex = n.snapshotIndex
  snapshotTerm : d.snapshot.elim 0 Snapshot.lastIncludedTerm = n.snapshotTerm
  nonneg : 0 ≤ n.snapshotIndex

/-- The call leaves a log file that can be read, where that is asked for. -/
def StorageCall.Guarded (json : Prop) (c : StorageCall) (d : PersistentState) : Prop :=
  json → ¬(c.op none).WritesNull d

/-- A section whose calls all succeed, and are guarded where files are written. -/
abbrev Section.Keeps {A : Type} (json : Prop) (post : A → PersistentState → Prop) (p : Section A)
    (d : PersistentState) : Prop :=
  StorageProgram.Guards StorageCall.effect (StorageCall.Guarded json) PersistentState.Aligned post p d

section Calls

variable {json : Prop} {d : PersistentState} {post : Bool → PersistentState → Prop}

/-- Saving the hard state leaves the log file alone. -/
@[simp] theorem keeps_persistHardState (n : Node) :
    n.persistHardState.Keeps json post d ↔ post true { d with hard := n.hardState } :=
  and_iff_right fun _ => not_false

/-- A log file that has been appended to can be read. -/
@[simp] theorem keeps_persistAppendLog (entries : List LogEntry) :
    (Node.persistAppendLog entries).Keeps json post d ↔ post true { d with log := d.log ++ entries } :=
  and_iff_right fun _ => not_false

/-- Saving a snapshot leaves the log file alone. -/
@[simp] theorem keeps_persistSnapshot (snap : Snapshot) :
    (Node.persistSnapshot snap).Keeps json post d ↔ post true { d with snapshot := some snap } :=
  and_iff_right fun _ => not_false

/-- Truncating the stored log must find an entry, or a base that is not zero. -/
@[simp] theorem keeps_persistTruncateLog (n : Node) (fromIndex : Int) :
    (n.persistTruncateLog fromIndex).Keeps json post d ↔ (json → ¬(d.logBase = 0 ∧ d.log = [])) ∧
      post true { d with log := d.log.take (max 0 (fromIndex - n.snapshotIndex - 1)).toNat } := Iff.rfl

/-- Replacing the stored log must leave an entry, or a base that is not zero. -/
@[simp] theorem keeps_persistCompactLog (n : Node) :
    n.persistCompactLog.Keeps json post d ↔ (json → ¬(n.snapshotIndex = 0 ∧ n.log = [])) ∧
      post true { d with logBase := n.snapshotIndex, log := n.log } := by
  have hnull : (StorageCall.op none (.setLog n.snapshotIndex n.log)).WritesNull d ↔
      n.snapshotIndex = 0 ∧ n.log = [] := by
    simp [StorageCall.op, StorageOp.WritesNull]
  exact and_congr (imp_congr_right fun _ => not_congr hnull) Iff.rfl

end Calls

/-- What of a node is stored. -/
def Node.durable (n : Node) : Int × String × Int × Int × List LogEntry :=
  (n.currentTerm, n.votedFor, n.snapshotIndex, n.snapshotTerm, n.log)

namespace Mirrors

variable {json : Prop} {n n' : Node} {d : PersistentState}

/-- Only what is stored matters. -/
theorem keep (h : Mirrors n d) (hnode : n'.durable = n.durable) : Mirrors n' d := by
  simp only [Node.durable, Prod.mk.injEq] at hnode
  obtain ⟨hterm, hvote, hindex, hsnap, hlog⟩ := hnode
  exact ⟨by rw [hterm, h.term], by rw [hvote, h.vote], by rw [hindex, h.base], by rw [hlog, h.log],
    by rw [hindex, h.index], by rw [hsnap, h.snapshotTerm], by rw [hindex]; exact h.nonneg⟩

/-- Saving the hard state after a change of it. -/
theorem save (h : Mirrors n d) (hindex : n'.snapshotIndex = n.snapshotIndex)
    (hsnap : n'.snapshotTerm = n.snapshotTerm) (hlog : n'.log = n.log) :
    Mirrors n' { d with hard := n'.hardState } :=
  ⟨rfl, rfl, by rw [hindex]; exact h.base, by rw [hlog]; exact h.log, by rw [hindex]; exact h.index,
    by rw [hsnap]; exact h.snapshotTerm, by rw [hindex]; exact h.nonneg⟩

/-- Appending to the log. -/
theorem append (h : Mirrors n d) (entries : List LogEntry) :
    Mirrors { n with log := n.log ++ entries } { d with log := d.log ++ entries } :=
  ⟨h.term, h.vote, h.base, congrArg (· ++ entries) h.log, h.index, h.snapshotTerm, h.nonneg⟩

/-- Cutting the log. -/
theorem truncate (h : Mirrors n d) (index : Int) :
    Mirrors { n with log := n.log.take (index - n.snapshotIndex - 1).toNat }
      { d with log := d.log.take (max 0 (index - n.snapshotIndex - 1)).toNat } := by
  refine ⟨h.term, h.vote, h.base, ?_, h.index, h.snapshotTerm, h.nonneg⟩
  change d.log.take (max 0 (index - n.snapshotIndex - 1)).toNat = _
  rw [h.log, show (max 0 (index - n.snapshotIndex - 1)).toNat = (index - n.snapshotIndex - 1).toNat by omega]

/-- A disk that mirrors a node is aligned. -/
theorem aligned (h : Mirrors n d) : d.Aligned :=
  ⟨h.base.trans h.index.symm, h.base ▸ h.nonneg⟩

/-- A node with an entry is stored with one. -/
theorem log_ne_nil (h : Mirrors n d) {index : Int} {entry : LogEntry} (hentry : n.entryAt index = some entry) :
    d.log ≠ [] := by
  rw [h.log]
  intro hnil
  obtain ⟨_, _, hget⟩ := Node.entryAt_eq_some hentry
  rw [hnil] at hget
  cases hget

section Sections

/-- Deciding on a vote. -/
theorem castVote (h : Mirrors n d) (req : RequestVoteRequest) :
    (n.castVote req).Keeps json (fun r d' => Mirrors r.1 d') d := by
  simp only [Node.castVote, guards_ite, guards_bind, keeps_persistHardState, guards_pure, if_true]
  exact ⟨fun _ => h.save rfl rfl rfl, fun _ => h⟩

/-- Handling a vote request. -/
theorem handleRequestVote (h : Mirrors n d) (req : RequestVoteRequest) :
    (n.handleRequestVote req).Keeps json (fun r d' => Mirrors r.1 d') d := by
  simp only [Node.handleRequestVote, guards_ite, guards_bind, keeps_persistHardState, guards_pure, if_true]
  refine ⟨fun _ => h, fun _ => ⟨fun _ => h, fun _ => ⟨fun _ => ?_, fun _ => h.castVote req⟩⟩⟩
  have hmoved : Mirrors { n.adoptTerm req.term with role := .follower }
      { d with hard := (n.adoptTerm req.term).hardState } := h.save rfl rfl rfl
  exact hmoved.castVote req

/-- Checking the preceding entry makes no calls. -/
theorem checkPrevLog {post : Option AppendEntriesResponse → PersistentState → Prop} (h : Mirrors n d)
    (req : AppendEntriesRequest) (hpost : ∀ r, post r d) : (n.checkPrevLog req).Keeps json post d := by
  simp only [Node.checkPrevLog, guards_ite, guards_pure]
  refine ⟨fun _ => hpost _, fun _ => ⟨fun _ => ?_, fun _ => ⟨fun _ => ⟨fun _ => hpost _, fun _ => hpost _⟩,
    fun _ => hpost _⟩⟩⟩
  cases n.entryAt req.prevLogIndex with
  | none => exact h.aligned
  | some prev =>
    simp only [guards_ite, guards_pure]
    exact ⟨fun _ => hpost _, fun _ => hpost _⟩

/-- Merging entries: a conflicting entry is in the stored log as well, so that log is not empty. -/
theorem mergeEntries (h : Mirrors n d) (index : Int) (entries : List LogEntry) :
    (n.mergeEntries index entries).Keeps json (fun r d' => Mirrors r.1 d') d := by
  induction entries generalizing index with
  | nil => exact h
  | cons entry rest ih =>
    simp only [Node.mergeEntries, guards_ite, guards_bind, keeps_persistAppendLog, guards_pure, if_true]
    refine ⟨fun _ => ih (index + 1), fun _ => ⟨fun _ => h.append (entry :: rest), fun _ => ?_⟩⟩
    cases hown : n.entryAt index with
    | none => exact h.aligned
    | some own =>
      obtain ⟨hlow, hhigh, _⟩ := Node.entryAt_eq_some hown
      simp only [Node.logTo_of_lt (n := n) hlow (by omega), guards_ite, guards_bind, keeps_persistTruncateLog,
        keeps_persistAppendLog, guards_pure, if_true]
      refine ⟨fun _ => ih (index + 1), fun _ => ⟨fun _ hempty => h.log_ne_nil hown hempty.2, ?_⟩⟩
      exact (h.truncate index).append (entry :: rest)

/-- Following the leader's commit index. -/
theorem followCommit (h : Mirrors n d) (leaderCommit : Int) :
    (n.followCommit leaderCommit).Keeps json (fun r d' => Mirrors r.1 d') d := by
  simp only [Node.followCommit, guards_ite, guards_bind, keeps_persistHardState, guards_pure, if_true]
  exact ⟨fun _ => h.save rfl rfl rfl, fun _ => h⟩

/-- Handling entries in the current term. -/
theorem appendFromLeader (h : Mirrors n d) (req : AppendEntriesRequest) :
    (n.appendFromLeader req).Keeps json (fun r d' => Mirrors r.1 d') d := by
  have hfollowing : Mirrors n.asFollower d := h.keep rfl
  simp only [Node.appendFromLeader, guards_bind]
  refine hfollowing.checkPrevLog req ?_
  rintro (_ | conflict)
  · simp only [guards_bind]
    refine (hfollowing.mergeEntries (req.prevLogIndex + 1) req.entries).mono ?_
    rintro ⟨merged, e | ⟨⟨⟩⟩⟩ d' hmerged
    · exact hmerged
    · simp only [guards_bind]
      refine (hmerged.followCommit req.leaderCommit).mono ?_
      rintro ⟨final, e | ⟨⟨⟩⟩⟩ d'' hfinal
      · exact hfinal
      · exact hfinal
  · exact hfollowing

/-- Handling entries. -/
theorem handleAppendEntries (h : Mirrors n d) (req : AppendEntriesRequest) :
    (n.handleAppendEntries req).Keeps json (fun r d' => Mirrors r.1 d') d := by
  simp only [Node.handleAppendEntries, guards_ite, guards_bind, keeps_persistHardState, guards_pure, if_true]
  refine ⟨fun _ => h, fun _ => ⟨fun _ => h, fun _ => ⟨fun _ => ?_, fun _ => h.appendFromLeader req⟩⟩⟩
  have hmoved : Mirrors (n.adoptTerm req.term) { d with hard := (n.adoptTerm req.term).hardState } :=
    h.save rfl rfl rfl
  exact hmoved.appendFromLeader req

/-- Starting the log at a snapshot that has been saved. -/
theorem compact {snap : Snapshot} (hterm : d.hard.currentTerm = n.currentTerm)
    (hvote : d.hard.votedFor = n.votedFor) (hindex : n.snapshotIndex = snap.lastIncludedIndex)
    (hsnap : n.snapshotTerm = snap.lastIncludedTerm) (hnonneg : 0 ≤ snap.lastIncludedIndex) :
    Mirrors n { d with snapshot := some snap, logBase := n.snapshotIndex, log := n.log } :=
  ⟨hterm, hvote, rfl, rfl, hindex.symm, hsnap.symm, hindex ▸ hnonneg⟩

/-- Installing a snapshot in the current term. -/
theorem installFromLeader (h : Mirrors n d) {req : InstallSnapshotRequest}
    (hlegible : json → n.snapshotIndex ≤ req.lastIncludedIndex → req.lastIncludedIndex = 0 →
      req.lastIncludedTerm ≠ n.snapshotTerm → n.log ≠ []) :
    (n.installFromLeader req).Keeps json (fun r d' => Mirrors r.1 d') d := by
  have hfollowing : Mirrors n.asFollower d := h.keep rfl
  simp only [Node.installFromLeader, Node.applySnapshot, Node.logBehind_eq, guards_ite, guards_bind,
    keeps_persistSnapshot, keeps_persistHardState, keeps_persistCompactLog, guards_pure, if_true]
  refine ⟨fun _ => hfollowing, fun hnew => ⟨fun _ => hfollowing, fun hother => ?_⟩⟩
  have hle : n.snapshotIndex ≤ req.lastIncludedIndex := Int.not_lt.mp hnew
  have hguard : json → ¬((n.asFollower.adoptSnapshot req.snapshot).snapshotIndex = 0 ∧
      (n.asFollower.adoptSnapshot req.snapshot).log = []) := by
    rintro hjson ⟨hzero, hempty⟩
    have hzero' : req.lastIncludedIndex = 0 := hzero
    have hnonneg := h.nonneg
    have hindex : n.snapshotIndex = 0 := by omega
    refine hlegible hjson hle hzero' (fun hterm => hother ⟨by omega, hterm⟩) ?_
    rw [Node.adoptSnapshot_log] at hempty
    have hdrop : n.log.drop (req.lastIncludedIndex - n.snapshotIndex).toNat = [] := hempty
    rw [hzero', hindex] at hdrop
    exact hdrop
  have hnonneg : 0 ≤ req.lastIncludedIndex := Int.le_trans h.nonneg hle
  have hplain : Mirrors (n.asFollower.adoptSnapshot req.snapshot)
      { d with
        snapshot := some req.snapshot
        logBase := (n.asFollower.adoptSnapshot req.snapshot).snapshotIndex
        log := (n.asFollower.adoptSnapshot req.snapshot).log } := compact h.term h.vote rfl rfl hnonneg
  exact ⟨fun _ => ⟨hguard, hplain.save rfl rfl rfl⟩, fun _ => ⟨hguard, hplain.keep rfl⟩⟩

/-- Installing a snapshot. -/
theorem handleInstallSnapshot (h : Mirrors n d) {req : InstallSnapshotRequest}
    (hlegible : json → n.AcceptsSnapshot req → req.lastIncludedIndex = 0 →
      req.lastIncludedTerm ≠ n.snapshotTerm → n.log ≠ []) :
    (n.handleInstallSnapshot req).Keeps json (fun r d' => Mirrors r.1 d') d := by
  simp only [Node.handleInstallSnapshot, guards_ite, guards_bind, keeps_persistHardState, guards_pure, if_true,
    Bool.not_eq_true]
  refine ⟨fun _ => h, fun hhealthy => ⟨fun _ => h, fun hterm => ?_⟩⟩
  have haccepted : json → n.snapshotIndex ≤ req.lastIncludedIndex → req.lastIncludedIndex = 0 →
      req.lastIncludedTerm ≠ n.snapshotTerm → n.log ≠ [] :=
    fun hjson hle => hlegible hjson ⟨hhealthy, Int.not_lt.mp hterm, hle⟩
  have hmoved : Mirrors (n.adoptTerm req.term) { d with hard := (n.adoptTerm req.term).hardState } :=
    h.save rfl rfl rfl
  exact ⟨fun _ => hmoved.installFromLeader haccepted, fun _ => h.installFromLeader haccepted⟩

/-- Starting an election. -/
theorem startElection (h : Mirrors n d) : n.startElection.Keeps json (fun r d' => Mirrors r.1 d') d := by
  simp only [Node.startElection, guards_bind, keeps_persistHardState, guards_pure, if_true]
  exact h.save rfl rfl rfl

/-- Stepping down. -/
theorem stepDown (h : Mirrors n d) (term : Int) :
    (n.stepDown term).Keeps json (fun n' d' => Mirrors n' d') d := by
  simp only [Node.stepDown, guards_bind, keeps_persistHardState, guards_pure, if_true]
  exact h.save rfl rfl rfl

/-- Reading a vote. -/
theorem handleVoteResponse (h : Mirrors n d) (votes majority : ℕ) (resp : RequestVoteResponse) :
    (n.handleVoteResponse votes majority resp).Keeps json (fun r d' => Mirrors r.1 d') d := by
  simp only [Node.handleVoteResponse, guards_ite, guards_bind, guards_pure]
  exact ⟨fun _ => h.stepDown resp.term, fun _ => ⟨fun _ => h, fun _ => ⟨fun _ => h.keep rfl, fun _ => h⟩⟩⟩

/-- Looking for an index to commit makes no calls. -/
theorem findCommit {post : Option Int → PersistentState → Prop} (h : d.Aligned) (hpost : ∀ r, post r d)
    (fuel : ℕ) (candidate : Int) : (n.findCommit fuel candidate).Keeps json post d := by
  induction fuel generalizing candidate with
  | zero => exact hpost none
  | succ fuel ih =>
    simp only [Node.findCommit, guards_ite, guards_pure]
    refine ⟨fun _ => ?_, fun _ => hpost none⟩
    cases n.entryAt candidate with
    | none => exact h
    | some entry =>
      simp only [guards_ite, guards_pure]
      exact ⟨fun _ => hpost _, fun _ => ih (candidate - 1)⟩

/-- Advancing the commit index. -/
theorem advanceCommitIndex (h : Mirrors n d) :
    n.advanceCommitIndex.Keeps json (fun r d' => Mirrors r.1 d') d := by
  simp only [Node.advanceCommitIndex, guards_bind]
  refine findCommit h.aligned ?_ _ _
  rintro (_ | candidate)
  · exact h
  · simp only [guards_bind, keeps_persistHardState, guards_pure, if_true]
    exact h.save rfl rfl rfl

/-- Processing an AppendEntries response. -/
theorem handleAppendEntriesResponse (h : Mirrors n d) (peerID : String) (req : AppendEntriesRequest)
    (resp : AppendEntriesResponse) :
    (n.handleAppendEntriesResponse peerID req resp).Keeps json (fun r d' => Mirrors r.1 d') d := by
  simp only [Node.handleAppendEntriesResponse, guards_ite, guards_bind, guards_pure]
  refine ⟨fun _ => h.stepDown resp.term, fun _ => ⟨fun _ => h, fun _ => ⟨fun _ => h, fun _ =>
    ⟨fun _ => h.keep rfl, fun _ => ?_⟩⟩⟩⟩
  exact advanceCommitIndex (h.keep rfl)

/-- Processing an InstallSnapshot response. -/
theorem handleInstallSnapshotResponse (h : Mirrors n d) (peerID : String) (req : InstallSnapshotRequest)
    (resp : InstallSnapshotResponse) :
    (n.handleInstallSnapshotResponse peerID req resp).Keeps json (fun n' d' => Mirrors n' d') d := by
  simp only [Node.handleInstallSnapshotResponse, guards_ite, guards_pure]
  exact ⟨fun _ => h.stepDown resp.term, fun _ => ⟨fun _ => h, fun _ => h.keep rfl⟩⟩

/-- Starting a command. -/
theorem startCommand (h : Mirrors n d) (cmd : Bytes) :
    (n.startCommand cmd).Keeps json (fun r d' => Mirrors r.1 d') d := by
  simp only [Node.startCommand, guards_ite, guards_bind, keeps_persistAppendLog, guards_pure, if_true]
  refine ⟨fun _ => h, fun _ => ?_⟩
  refine Guards.mono (advanceCommitIndex ((h.append [n.newEntry cmd]).keep rfl)) ?_
  rintro ⟨moved, advanced⟩ d' hmoved
  cases advanced with
  | false => exact hmoved.keep rfl
  | true => exact hmoved.keep rfl

/-- Compacting the log. -/
theorem takeSnapshot (h : Mirrors n d) (index : Int) (data : Bytes) :
    (n.takeSnapshot index data).Keeps json (fun r d' => Mirrors r.1 d') d := by
  simp only [Node.takeSnapshot, guards_ite, guards_pure]
  refine ⟨fun _ => h, fun hnew => ⟨fun _ => h, fun _ => ?_⟩⟩
  cases n.entryAt index with
  | none => exact h.aligned
  | some entry =>
    have hnonneg := h.nonneg
    simp only [guards_bind, keeps_persistSnapshot, keeps_persistCompactLog, guards_pure, if_true]
    refine ⟨fun _ hzero => ?_, compact h.term h.vote rfl rfl (by change 0 ≤ index; omega)⟩
    have hindex : index = 0 := hzero.1
    omega

/-- Looking for a snapshot to send makes no calls. -/
theorem installSnapshotRequestForPeer (h : Mirrors n d) (peerID : String) :
    (n.installSnapshotRequestForPeer peerID).Keeps json (fun r d' => Mirrors r.1 d') d := by
  simp only [Node.installSnapshotRequestForPeer, guards_ite, guards_pure]
  refine ⟨fun _ => h, fun _ => ⟨fun _ => h, fun _ => ⟨fun _ => h.keep rfl, fun _ => ?_⟩⟩⟩
  cases n.snapshot with
  | none => exact h.aligned
  | some snap => exact h.keep rfl

/-- Building entries to send makes no calls. -/
theorem appendEntriesRequestForPeer (h : Mirrors n d) (peerID : String) :
    (n.appendEntriesRequestForPeer peerID).Keeps json (fun r d' => Mirrors r.1 d') d := by
  simp only [Node.appendEntriesRequestForPeer, guards_ite, guards_pure]
  refine ⟨fun _ => h, fun _ => ⟨fun _ => h.keep rfl, fun _ => ?_⟩⟩
  cases n.appendEntriesRequest (max 1 (n.nextIndex peerID)) with
  | none => exact h.aligned
  | some req => exact h.keep rfl

/-- Picking an entry makes no calls. -/
theorem nextToApply (h : Mirrors n d) : n.nextToApply.Keeps json (fun r d' => Mirrors r.1 d') d := by
  simp only [Node.nextToApply, guards_ite, guards_pure]
  refine ⟨fun _ => h, fun _ => ⟨fun _ => h, fun _ => ?_⟩⟩
  cases n.entryAt (n.lastApplied + 1) with
  | none => exact h.aligned
  | some entry => exact h.keep rfl

end Sections

/-- A process that starts from an aligned disk mirrors it. -/
theorem boot (h : d.Aligned) (id : String) (peers : List String) :
    Mirrors (Server.boot id peers d).node d := by
  have hindex : (newNode id peers d).snapshotIndex = d.logBase := by rw [newNode_snapshotIndex, h.base]
  have hlog : (newNode id peers d).log = d.log := by
    rw [newNode_log, ← h.base, Int.sub_self]
    simp
  have hnew : Mirrors (newNode id peers d) d :=
    ⟨(newNode_currentTerm ..).symm, (newNode_votedFor ..).symm, hindex.symm, hlog.symm,
      (newNode_snapshotIndex ..).symm, (newNode_snapshotTerm ..).symm, hindex ▸ h.nonneg⟩
  exact hnew.keep rfl

/-- A disk that mirrors a node is the stored state that the node should have. -/
theorem mirroredBy (h : Mirrors n d) : n.MirroredBy d := by
  refine ⟨h.base, h.log, h.term, h.vote, fun hpos => ?_, fun id peers => ?_⟩
  · have hindex := h.index
    have hterm := h.snapshotTerm
    cases hsnap : d.snapshot with
    | none =>
      rw [hsnap] at hindex
      change 0 = n.snapshotIndex at hindex
      omega
    | some snap =>
      rw [hsnap] at hindex hterm
      exact ⟨snap, rfl, hindex, hterm⟩
  · have hboot := boot h.aligned id peers
    exact ⟨hboot.term.symm.trans h.term, hboot.vote.symm.trans h.vote, hboot.base.symm.trans h.base,
      hboot.snapshotTerm.symm.trans h.snapshotTerm, hboot.log.symm.trans h.log⟩

end Mirrors

/-- A step has led from a server to a mirrored one, by way of the given storage calls. -/
structure Server.Tracks (json : Prop) (sv : Server) (calls : List StorageCall) (after : Server) : Prop where
  mirrors : Mirrors after.node after.disk
  guarded : Along StorageCall.effect (StorageCall.Guarded json) calls sv.disk
  disk : after.disk = calls.foldl (fun d c => c.effect d) sv.disk

namespace Server.Tracks

variable {json : Prop} {sv : Server} {fresh : ℕ} {input : Input} {result : Server × Effects}

/-- A step without storage calls. -/
theorem quiet {after : Server} (h : Mirrors sv.node sv.disk) (hnode : after.node.durable = sv.node.durable)
    (hdisk : after.disk = sv.disk) : sv.Tracks json [] after :=
  ⟨by rw [hdisk]; exact h.keep hnode, trivial, hdisk⟩

/-- A performed section makes its calls. -/
theorem perform {A : Type} {p : Section A} {next : A → PersistentState → Server × Effects} {f : A → Node}
    (hp : p.Keeps json (fun r d' => Mirrors (f r) d') sv.disk) (hnode : ∀ r disk, (next r disk).1.node = f r)
    (hdisk : ∀ r disk, (next r disk).1.disk = disk) :
    sv.Tracks json (p.performed []) (sv.perform [] p next).1 := by
  have hjudged : StorageProgram.Judged PersistentState.Aligned (fun r d' => Mirrors (f r) d')
      (p.run [] sv.disk) := hp.exec
  have hends : (p.run [] sv.disk).2 = (p.performed []).foldl (fun d c => c.effect d) sv.disk := p.exec_nil_disk sv.disk
  suffices hperform : Mirrors (sv.perform [] p next).1.node (sv.perform [] p next).1.disk ∧
      (sv.perform [] p next).1.disk = (p.run [] sv.disk).2 from
    ⟨hperform.1, hp.along, hperform.2.trans hends⟩
  unfold Server.perform
  generalize p.run [] sv.disk = outcome at hjudged ⊢
  rcases outcome with ⟨a | _ | _, disk⟩
  · exact ⟨by rw [hnode, hdisk]; exact hjudged, hdisk a disk⟩
  · exact ⟨.boot hjudged sv.node.id sv.node.peers, rfl⟩
  · exact ⟨.boot hjudged sv.node.id sv.node.peers, rfl⟩

/-- The answer of a handler comes with its node and disk. -/
theorem handle {R : Type} {p : Section (Node × Except RaftError R)} (wrap : R → Reply)
    (hp : p.Keeps json (fun r d' => Mirrors r.1 d') sv.disk) :
    sv.Tracks json (p.performed []) (sv.perform [] p fun r disk => Server.onDisk disk (sv.handled wrap r)).1 := by
  refine perform (f := Prod.fst) hp ?_ ?_
  · rintro ⟨node, _ | _⟩ disk <;> rfl
  · rintro ⟨node, _ | _⟩ disk <;> rfl

/-- An AppendEntries response is processed by the goroutine that waits for it. -/
theorem appendAnswered (h : Mirrors sv.node sv.disk) {handle : ℕ} {resp : AppendEntriesResponse}
    (hstep : sv.step fresh [] (.appendAnswered handle resp) = some result) :
    sv.Tracks json (sv.performed fresh [] (.appendAnswered handle resp)) result.1 := by
  obtain ⟨plan, hplan, rfl⟩ := Server.exists_plan_of_step hstep nofun
  have hcritical := hplan
  simp only [NodeProcess.plan] at hplan
  split at hplan
  · split at hplan
    · cases hplan
      rw [Server.performed_of_plan hcritical]
      exact perform (f := Prod.fst) (h.handleAppendEntriesResponse _ _ _) (fun _ _ => rfl) fun _ _ => rfl
    · cases hplan
  · cases hplan

/-- So is an InstallSnapshot response. -/
theorem installAnswered (h : Mirrors sv.node sv.disk) {handle : ℕ} {resp : InstallSnapshotResponse}
    (hstep : sv.step fresh [] (.installAnswered handle resp) = some result) :
    sv.Tracks json (sv.performed fresh [] (.installAnswered handle resp)) result.1 := by
  obtain ⟨plan, hplan, rfl⟩ := Server.exists_plan_of_step hstep nofun
  have hcritical := hplan
  simp only [NodeProcess.plan] at hplan
  split at hplan
  · split at hplan
    · cases hplan
      rw [Server.performed_of_plan hcritical]
      exact perform (f := id) (h.handleInstallSnapshotResponse _ _ _) (fun _ _ => rfl) fun _ _ => rfl
    · cases hplan
  · cases hplan

/-- Every step of a mirrored server. -/
theorem step (json : Prop) (h : Mirrors sv.node sv.disk) (hlegible : json → sv.InstallsLegibly input)
    (hstep : sv.step fresh [] input = some result) : 
    sv.Tracks json (sv.performed fresh [] input) result.1 := by
  cases Server.Move.of_step hstep with
  | restart => exact ⟨.boot h.aligned _ _, trivial, rfl⟩
  | dispatch =>
    rw [Server.performed_of_not_critical rfl]
    refine quiet h ?_ ?_ <;>
    · simp only [NodeProcess.dispatch]
      split
      · rfl
      · split <;> rfl
  | startElection hmain =>
    have hplan : sv.plan fresh .startElection = some sv.planStartElection := by
      simp only [NodeProcess.plan, hmain]
    rw [Server.performed_of_plan hplan]
    exact perform (f := Prod.fst) h.startElection (fun _ _ => rfl) fun _ _ => rfl
  | @voteAnswered poll handle resp hmain hawaited =>
    have hplan : sv.plan fresh (.voteAnswered handle resp) = some (sv.planVoteAnswered poll handle resp) := by
      simp only [NodeProcess.plan, hmain, hawaited, if_true]
    rw [Server.performed_of_plan hplan]
    exact perform (f := Prod.fst) (h.handleVoteResponse _ _ _) (fun _ _ => rfl) fun _ _ => rfl
  | appendAnswered => exact appendAnswered h hstep
  | installAnswered => exact installAnswered h hstep
  | @visit peer todo hmain hpeer =>
    have hplan : sv.plan fresh (.visit peer) = some (sv.planVisit fresh peer todo) := by
      simp only [NodeProcess.plan, hmain, hpeer, if_true]
    rw [Server.performed_of_plan hplan]
    refine perform (f := Prod.fst) (h.installSnapshotRequestForPeer _) ?_ ?_
    · rintro ⟨node, _ | _ | req⟩ disk <;> rfl
    · rintro ⟨node, _ | _ | req⟩ disk <;> rfl
  | @appendTurn peer todo hmain =>
    have hplan : sv.plan fresh .appendTurn = some (sv.planAppendTurn fresh peer todo) := by
      simp only [NodeProcess.plan, hmain]
    rw [Server.performed_of_plan hplan]
    refine perform (f := Prod.fst) (h.appendEntriesRequestForPeer _) ?_ ?_
    · rintro ⟨node, _ | _ | req⟩ disk <;> rfl
    · rintro ⟨node, _ | _ | req⟩ disk <;> rfl
  | receive req =>
    cases req with
    | vote req => exact handle _ (h.handleRequestVote req)
    | append req => exact handle _ (h.handleAppendEntries req)
    | install req => exact handle _ (h.handleInstallSnapshot fun hjson => hlegible hjson req rfl)
  | startCommand cmd => exact perform (f := Prod.fst) (h.startCommand cmd) (fun _ _ => rfl) fun _ _ => rfl
  | takeSnapshot index data =>
    refine perform (f := Prod.fst) (h.takeSnapshot index data) ?_ ?_
    · rintro ⟨node, _ | _⟩ disk <;> rfl
    · rintro ⟨node, _ | _⟩ disk <;> rfl
  | pickEntry happlier =>
    have hplan : sv.plan fresh .pickEntry = some sv.planPickEntry := by
      simp only [NodeProcess.plan, happlier]
    rw [Server.performed_of_plan hplan]
    exact perform (f := Prod.fst) h.nextToApply (fun _ _ => rfl) fun _ _ => rfl
  | signal =>
    rw [Server.performed_of_not_critical rfl]
    refine quiet h ?_ rfl
    simp only [NodeProcess.stepSignal]
    split <;> split <;> rfl
  | electionReset | electionTimeout | openPoll | pollTimeout | startRoundNotified | startRound | callFailed
  | finish | notify | wakeApply | drain | sendSnapshot | recordSnapshot | sendEntry =>
    rw [Server.performed_of_not_critical rfl]
    exact ⟨h.keep rfl, trivial, rfl⟩

end Server.Tracks

/-- Guarded calls succeed on files that hold what the disk holds, and keep them equal. -/
theorem JSONStorage.Holds.performAll {s : JSONStorage} {ps : PersistentState} {empty : Slice LogEntry}
    (hempty : empty.elements = []) {calls : List StorageCall} (h : s.Holds ps)
    (hguarded : Along StorageCall.effect (StorageCall.Guarded True) calls ps) :
    ∃ s', s.performAll (calls.map (·.op empty)) = some s' ∧
      s'.Holds (calls.foldl (fun d c => c.effect d) ps) := by
  induction calls generalizing s ps with
  | nil => exact ⟨s, rfl, h⟩
  | cons c rest ih =>
    have hread : ¬(c.op empty).WritesNull ps := by
      have hnil := hguarded.1 trivial
      cases c with
      | setLog base entries =>
        simp only [StorageCall.op, StorageOp.WritesNull] at hnil ⊢
        split at hnil <;> rename_i hentries <;> simp_all
      | saveHardState | appendLog | truncateLog | saveSnapshot => exact hnil
    have hcall : (c.op empty).inMemory ps = c.effect ps := by
      cases c with
      | setLog base entries =>
        simp only [StorageCall.op, StorageOp.inMemory, StorageOp.call]
        split
        · rename_i hentries
          rw [hempty, hentries]
        · rfl
      | saveHardState | appendLog | truncateLog | saveSnapshot => rfl
    obtain ⟨s₁, hperform, h₁⟩ := h.perform hread
    rw [hcall] at h₁
    obtain ⟨s₂, hrest, h₂⟩ := ih h₁ hguarded.2
    refine ⟨s₂, ?_, h₂⟩
    unfold JSONStorage.performAll at hrest ⊢
    rw [List.map_cons, List.foldlM_cons, hperform]
    exact hrest

/-- Over in-memory storage the disk mirrors the node. -/
theorem mirrors_of_memoryReachable {sv : Server} (run : MemoryReachable sv) : Mirrors sv.node sv.disk := by
  refine run.invariant (P := fun sv => Mirrors sv.node sv.disk) ?_ ?_
  · rintro sv ⟨id, peers, rfl⟩
    exact .boot ⟨rfl, Int.le_refl 0⟩ id peers
  · rintro sv sv' _ h ⟨drive, hfates, hdrive⟩
    obtain ⟨result, hstep, rfl⟩ := Option.map_eq_some_iff.mp hdrive
    rw [hfates] at hstep
    exact (Server.Tracks.step False h nofun hstep).mirrors

/-- The files hold what the disk holds, and the disk mirrors the node. -/
structure JSONProcess.Faithful (p : JSONProcess) : Prop where
  holds : p.files.Holds p.server.disk
  mirrors : Mirrors p.server.node p.server.disk

/-- Steps that install legibly keep the files faithful. -/
theorem JSONProcess.Faithful.step {p p' : JSONProcess} {label : ℕ × Input} (h : p.Faithful)
    (hlegible : p.server.InstallsLegibly label.2) (hstep : p.step label = some p') : p'.Faithful := by
  obtain ⟨⟨after, effects⟩, hserver, hrest⟩ := Option.bind_eq_some_iff.mp hstep
  obtain ⟨files, hfiles, hend⟩ := Option.bind_eq_some_iff.mp hrest
  have htracks := Server.Tracks.step True h.mirrors (fun _ => hlegible) hserver
  have hempty : label.2.emptyLog.elements = [] := by
    cases label.2 <;> rfl
  obtain ⟨files', hfiles', hholds⟩ := h.holds.performAll hempty htracks.guarded
  cases hfiles.symm.trans hfiles'
  rw [← htracks.disk] at hholds
  split at hend
  · obtain ⟨ps, hload, hboot⟩ := Option.bind_eq_some_iff.mp hend
    cases hload.symm.trans hholds.load
    cases hboot
    exact ⟨hholds, .boot htracks.mirrors.aligned _ _⟩
  · cases hend
    exact ⟨hholds, htracks.mirrors⟩

/-- **Storage mirrors the node.** From empty storage and with every storage call succeeding, the stored
state is the node's after every step: always over in-memory storage, and over files in every run in
which no snapshot up to index zero is accepted while the log is empty. -/
theorem storage_mirrors_node (sv : Server) (p : JSONProcess) :
    (MemoryReachable sv → sv.node.MirroredBy sv.disk) ∧
      (JSONReachable (fun p label => p.server.InstallsLegibly label.2) p →
        ∃ ps, p.files.load = some ps ∧ p.server.node.MirroredBy ps) := by
  refine ⟨fun run => (mirrors_of_memoryReachable run).mirroredBy, fun run => ?_⟩
  have hfaithful : p.Faithful := by
    refine run.invariant ?_ ?_
    · rintro p ⟨id, peers, rfl⟩
      exact ⟨.fresh, .boot ⟨rfl, Int.le_refl 0⟩ id peers⟩
    · rintro p p' _ h ⟨label, hlegible, hstep⟩
      exact h.step hlegible hstep
  exact ⟨_, hfaithful.holds.load, hfaithful.mirrors.mirroredBy⟩

/-- A snapshot up to index zero that leader `b` of term 1 sends. -/
def snapshotOfNothing : Input :=
  .receive (.install {
    term := 1
    leaderID := "b"
    lastIncludedIndex := 0
    lastIncludedTerm := 1
    config := { members := [] }
    data := [] })

/-- A node that has stored an entry and installed a snapshot is rebuilt from either storage. -/
theorem storage_mirrors_node_after_snapshot :
    (∃ sv, MemoryReachable sv ∧ sv.node.snapshotIndex = 5 ∧ sv.node.MirroredBy sv.disk) ∧
      ∃ p, JSONReachable (fun p label => p.server.InstallsLegibly label.2) p ∧ p.server.node.snapshotIndex = 5 ∧
        ∃ ps, p.files.load = some ps ∧ p.server.node.MirroredBy ps := by
  have hmemory : (execute (fun _ (drive : Drive) => drive.fates = []) Server.drive
      (.boot "a" ["a", "b", "c"] .empty) [.of (entriesOf 0 0 [commandEntry 7] 1), .of (snapshotOf 5)]).map
      (fun sv => sv.node.snapshotIndex) = some 5 := by
    decide +kernel
  have hfiles : (execute (fun p label => p.server.InstallsLegibly label.2) JSONProcess.step
      (.first "a" ["a", "b", "c"]) [(0, entriesOf 0 0 [commandEntry 7] 1), (0, snapshotOf 5)]).map
      (fun p => p.server.node.snapshotIndex) = some 5 := by
    decide +kernel
  obtain ⟨sv, hsv, hindex⟩ : ∃ sv, MemoryReachable sv ∧ sv.node.snapshotIndex = 5 :=
    exists_reachable_of_execute ⟨_, _, rfl⟩ hmemory
  obtain ⟨p, hp, hindex'⟩ : ∃ p, JSONReachable (fun p label => p.server.InstallsLegibly label.2) p ∧
      p.server.node.snapshotIndex = 5 := exists_reachable_of_execute ⟨_, _, rfl⟩ hfiles
  have hmirrored := storage_mirrors_node sv p
  exact ⟨⟨sv, hsv, hindex, hmirrored.1 hsv⟩, p, hp, hindex', hmirrored.2 hp⟩

/-- A new node over an empty directory accepts a snapshot up to index zero, and its storage cannot be
loaded afterwards. -/
theorem storage_unreadable_after_install :
    ∃ p, JSONReachable (fun _ _ => True) p ∧ p.server.node.currentTerm = 1 ∧ p.files.load = none := by
  have hrun : (execute (fun _ _ => True) JSONProcess.step (.first "a" ["a", "b", "c"])
      [(0, snapshotOfNothing)]).map (fun p => (p.server.node.currentTerm, p.files.load)) = some (1, none) := by
    decide +kernel
  obtain ⟨p, hp, hfacts⟩ : ∃ p, JSONReachable (fun _ _ => True) p ∧
      (p.server.node.currentTerm, p.files.load) = (1, none) := exists_reachable_of_execute ⟨_, _, rfl⟩ hrun
  exact ⟨p, hp, (Prod.mk.inj hfacts).1, (Prod.mk.inj hfacts).2⟩

end ConsensusLab.Raft
