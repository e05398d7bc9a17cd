import ConsensusLab.Raft.Types
import Mathlib.Logic.Function.Basic

/-!
# The state of a Raft node

The fields of `Node` that its logic reads, what `NewNode` restores from storage, and
the helpers the other files share. The three notification channels hold at most one
token, so each is a truth value. Loggers, tracing, metrics and the timestamps they use
have no influence on the state and are left out.
-/

namespace ConsensusLab.Raft

open Foundation

/-- A single Raft replica. -/
structure Node where
  id : String
  /-- The ids of the remote peers. -/
  peers : List String
  role : Role
  currentTerm : Int
  votedFor : String
  degraded : Bool
  log : List LogEntry
  snapshotIndex : Int
  snapshotTerm : Int
  snapshot : Option Snapshot
  pendingSnapshot : Option Snapshot
  commitIndex : Int
  lastApplied : Int
  config : ClusterConfig
  nextIndex : String → Int
  matchIndex : String → Int
  replicateInFlight : String → Bool
  replicatePending : String → Bool
  /-- A token in `electionTimeoutResetCh`. -/
  electionTimeoutReset : Bool
  /-- A token in `applyNotifyCh`. -/
  applyNotify : Bool
  /-- A token in `replicateNotifyCh`. -/
  replicateNotify : Bool

/-- `normalizePeers`: the peers without the node itself. -/
def normalizePeers (selfID : String) (peers : List String) : List String :=
  peers.filter (· ≠ selfID)

namespace Node

/-- `quorumSize`: the majority quorum based on the active cluster config. -/
def quorumSize (n : Node) : ℕ :=
  n.config.members.length / 2 + 1

/-- `lastLogIndexLocked`: the last Raft log index, or zero for an empty log. -/
def lastLogIndex (n : Node) : Int :=
  n.snapshotIndex + n.log.length

/-- `lastLogTermLocked`: the term of the last entry, or of the snapshot if the log is empty. -/
def lastLogTerm (n : Node) : Int :=
  match n.log.getLast? with
  | none => n.snapshotTerm
  | some entry => entry.term

/-- `entryAtLocked`: the entry at a Raft index; `none` where the slice access panics. -/
def entryAt (n : Node) (raftIndex : Int) : Option LogEntry :=
  if raftIndex - n.snapshotIndex - 1 < 0 then none
  else n.log[(raftIndex - n.snapshotIndex - 1).toNat]?

/-- Above the snapshot the index is shifted by the snapshot's. -/
theorem entryAt_of_lt {n : Node} {i : Int} (h : n.snapshotIndex < i) :
    n.entryAt i = n.log[(i - n.snapshotIndex - 1).toNat]? := if_neg (by omega)

/-- The indices that hold an entry are those behind the snapshot and up to the last one. -/
theorem entryAt_eq_some {n : Node} {i : Int} {e : LogEntry} (h : n.entryAt i = some e) :
    n.snapshotIndex < i ∧ i ≤ n.lastLogIndex ∧ n.log[(i - n.snapshotIndex - 1).toNat]? = some e := by
  unfold entryAt at h
  split at h
  · cases h
  · obtain ⟨hlt, _⟩ := List.getElem?_eq_some_iff.mp h
    unfold lastLogIndex
    exact ⟨by omega, by omega, h⟩

/-- Every index behind the snapshot and up to the last one holds an entry. -/
theorem exists_entryAt {n : Node} {i : Int} (hlow : n.snapshotIndex < i) (hhigh : i ≤ n.lastLogIndex) :
    ∃ e, n.entryAt i = some e := by
  unfold lastLogIndex at hhigh
  rw [entryAt_of_lt hlow]
  exact ⟨_, List.getElem?_eq_getElem (by omega)⟩

/-- Only the log and its offset matter to the last index. -/
theorem lastLogIndex_congr {n n' : Node} (hindex : n'.snapshotIndex = n.snapshotIndex) (hlog : n'.log = n.log) :
    n'.lastLogIndex = n.lastLogIndex := by
  rw [lastLogIndex, hindex, hlog, lastLogIndex]

/-- Only the log and its offset matter to the entry at an index. -/
theorem entryAt_congr {n n' : Node} (hindex : n'.snapshotIndex = n.snapshotIndex) (hlog : n'.log = n.log)
    (i : Int) : n'.entryAt i = n.entryAt i := by
  rw [entryAt, hindex, hlog, entryAt]

/-- The slice `n.log[:k]`; `none` where it panics. -/
def logTo (n : Node) (k : Int) : Option (List LogEntry) :=
  if k < 0 ∨ n.log.length < k then none else some (n.log.take k.toNat)

/-- The slice `n.log[k:]`; `none` where it panics. -/
def logFrom (n : Node) (k : Int) : Option (List LogEntry) :=
  if k < 0 ∨ n.log.length < k then none else some (n.log.drop k.toNat)

/-- The log can be cut at every index behind the snapshot and up to one behind the last. -/
theorem logTo_of_lt {n : Node} {i : Int} (hlow : n.snapshotIndex < i) (hhigh : i ≤ n.lastLogIndex + 1) :
    n.logTo (i - n.snapshotIndex - 1) = some (n.log.take (i - n.snapshotIndex - 1).toNat) := by
  unfold lastLogIndex at hhigh
  exact if_neg (by omega)

/-- Cutting a log where it was extended gives it back. -/
theorem logTo_append (n : Node) (more : List LogEntry) :
    ({ n with log := n.log ++ more } : Node).logTo n.log.length = some n.log := by
  rw [logTo, if_neg (by simp only [List.length_append]; omega), Int.toNat_natCast, List.take_left]

section Edits

variable {n n' : Node} {i : Int} {e : LogEntry}

/-- The node with its log extended. -/
def extended (n : Node) (more : List LogEntry) : Node :=
  { n with log := n.log ++ more }

/-- Extending a log keeps its entries. -/
theorem entryAt_extended {more : List LogEntry} (he : n.entryAt i = some e) :
    (n.extended more).entryAt i = some e := by
  obtain ⟨hlow, _, hget⟩ := entryAt_eq_some he
  rw [entryAt_of_lt (n := n.extended more) hlow]
  simp only [extended]
  rw [List.getElem?_append_left (List.getElem?_eq_some_iff.mp hget).1, hget]

/-- An entry of an extended log is an old one or one of the new ones. -/
theorem of_entryAt_extended {more : List LogEntry} (he : (n.extended more).entryAt i = some e) :
    n.entryAt i = some e ∨ ∃ j : ℕ, i = n.lastLogIndex + 1 + j ∧ more[j]? = some e := by
  obtain ⟨hlow, _, hget⟩ := entryAt_eq_some he
  simp only [extended] at hlow hget
  by_cases hold : (i - n.snapshotIndex - 1).toNat < n.log.length
  · rw [List.getElem?_append_left hold] at hget
    exact Or.inl (by rw [entryAt_of_lt hlow, hget])
  · rw [List.getElem?_append_right (by omega)] at hget
    refine Or.inr ⟨(i - n.snapshotIndex - 1).toNat - n.log.length, ?_, hget⟩
    unfold lastLogIndex
    omega

/-- The new entries of an extended log come right behind the old ones. -/
theorem entryAt_extended_new (n : Node) (more : List LogEntry) (j : ℕ) :
    (n.extended more).entryAt (n.lastLogIndex + 1 + j) = more[j]? := by
  have hlow : (n.extended more).snapshotIndex < n.lastLogIndex + 1 + j := by
    change n.snapshotIndex < n.snapshotIndex + n.log.length + 1 + j
    omega
  have hshift : (n.lastLogIndex + 1 + j - n.snapshotIndex - 1).toNat = n.log.length + j := by
    unfold lastLogIndex
    omega
  rw [entryAt_of_lt hlow]
  change (n.log ++ more)[(n.lastLogIndex + 1 + j - n.snapshotIndex - 1).toNat]? = more[j]?
  rw [hshift, List.getElem?_append_right (Nat.le_add_right _ _), Nat.add_sub_cancel_left]

/-- The node with its log cut at an index. -/
def cut (n : Node) (index : Int) : Node :=
  { n with log := n.log.take (index - n.snapshotIndex - 1).toNat }

/-- The entries of a log that was cut are those below the cut. -/
theorem entryAt_cut (n : Node) {index : Int} (hcut : n.snapshotIndex < index) :
    (n.cut index).entryAt i = some e ↔ n.entryAt i = some e ∧ i < index := by
  by_cases hlow : n.snapshotIndex < i
  · rw [entryAt_of_lt (n := n.cut index) hlow, entryAt_of_lt hlow]
    simp only [cut, List.getElem?_take]
    split
    · exact ⟨fun h => ⟨h, by omega⟩, fun h => h.1⟩
    · exact ⟨nofun, fun h => by omega⟩
  · have hnone : n.entryAt i = none := if_pos (by omega)
    have hnone' : (n.cut index).entryAt i = none := if_pos (by simp only [cut]; omega)
    rw [hnone, hnone']
    exact ⟨nofun, fun h => nomatch h.1⟩

/-- The entries of a compacted log are those behind its new start. -/
theorem entryAt_drop (hle : n.snapshotIndex ≤ n'.snapshotIndex)
    (hlog : n'.log = n.log.drop (n'.snapshotIndex - n.snapshotIndex).toNat) :
    n'.entryAt i = some e ↔ n.entryAt i = some e ∧ n'.snapshotIndex < i := by
  by_cases hlow : n'.snapshotIndex < i
  · rw [entryAt_of_lt hlow, entryAt_of_lt (n := n) (by omega), hlog, List.getElem?_drop,
      show (n'.snapshotIndex - n.snapshotIndex).toNat + (i - n'.snapshotIndex - 1).toNat =
        (i - n.snapshotIndex - 1).toNat by omega]
    exact ⟨fun h => ⟨h, hlow⟩, fun h => h.1⟩
  · have hnone : n'.entryAt i = none := if_pos (by omega)
    rw [hnone]
    exact ⟨nofun, fun h => absurd h.2 hlow⟩

end Edits

/-- `firstIndexOfTermLocked`: the first Raft index containing a term, or zero if absent. -/
def firstIndexOfTerm (n : Node) (term : Int) : Int :=
  match n.log.findIdx? (·.term = term) with
  | none => 0
  | some i => n.snapshotIndex + (i + 1)

/-- `lastIndexOfTermLocked`: the last Raft index containing a term, or zero if absent. -/
def lastIndexOfTerm (n : Node) (term : Int) : Int :=
  match n.log.reverse.findIdx? (·.term = term) with
  | none => 0
  | some i => n.snapshotIndex + (n.log.length - i)

/-- The hard state that `persistHardStateLocked` writes. -/
def hardState (n : Node) : HardState where
  currentTerm := n.currentTerm
  votedFor := n.votedFor
  commitIndex := n.commitIndex
  config := n.config

/-- `persistHardStateLocked`; the answer is whether it succeeded. -/
def persistHardState (n : Node) : Section Bool :=
  .call (.saveHardState n.hardState) .done

/-- `persistAppendLogLocked`. -/
def persistAppendLog (entries : List LogEntry) : Section Bool :=
  .call (.appendLog entries) .done

/-- `persistTruncateLogLocked`: keep the entries with index in `(snapshotIndex, fromIndex)`. -/
def persistTruncateLog (n : Node) (fromIndex : Int) : Section Bool :=
  .call (.truncateLog (max 0 (fromIndex - n.snapshotIndex - 1))) .done

/-- `persistSnapshotLocked`. -/
def persistSnapshot (snap : Snapshot) : Section Bool :=
  .call (.saveSnapshot snap) .done

/-- `persistCompactLogLocked`: replace the stored log with the entries behind the snapshot. -/
def persistCompactLog (n : Node) : Section Bool :=
  .call (.setLog n.snapshotIndex n.log) .done

section Ensures

variable {faults : Prop} {lost : PersistentState → Prop} {post : Bool → PersistentState → Prop}
  {disk : PersistentState}

/-- Saving the hard state changes nothing else on disk. -/
@[simp] theorem ensures_persistHardState (n : Node) :
    n.persistHardState.Ensures faults lost post disk ↔
      (faults → lost disk ∧ post false disk) ∧ post true { disk with hard := n.hardState } := Iff.rfl

/-- Appending to the stored log changes nothing else on disk. -/
@[simp] theorem ensures_persistAppendLog (entries : List LogEntry) :
    (persistAppendLog entries).Ensures faults lost post disk ↔
      (faults → lost disk ∧ post false disk) ∧ post true { disk with log := disk.log ++ entries } :=
  Iff.rfl

/-- Truncating the stored log changes nothing else on disk. -/
@[simp] theorem ensures_persistTruncateLog (n : Node) (fromIndex : Int) :
    (n.persistTruncateLog fromIndex).Ensures faults lost post disk ↔
      (faults → lost disk ∧ post false disk) ∧
        post true { disk with log := disk.log.take (max 0 (fromIndex - n.snapshotIndex - 1)).toNat } :=
  Iff.rfl

/-- Saving a snapshot changes nothing else on disk. -/
@[simp] theorem ensures_persistSnapshot (snap : Snapshot) :
    (persistSnapshot snap).Ensures faults lost post disk ↔
      (faults → lost disk ∧ post false disk) ∧ post true { disk with snapshot := some snap } := Iff.rfl

/-- Replacing the stored log changes its base with it. -/
@[simp] theorem ensures_persistCompactLog (n : Node) :
    n.persistCompactLog.Ensures faults lost post disk ↔
      (faults → lost disk ∧ post false disk) ∧
        post true { disk with logBase := n.snapshotIndex, log := n.log } := Iff.rfl

end Ensures

/-- The node that `NewNode` builds before it looks at storage. -/
def blank (id : String) (peers : List String) : Node where
  id := id
  peers := peers
  role := .follower
  currentTerm := 0
  votedFor := ""
  degraded := false
  log := []
  snapshotIndex := 0
  snapshotTerm := 0
  snapshot := none
  pendingSnapshot := none
  commitIndex := 0
  lastApplied := 0
  config := { members := [] }
  nextIndex := fun _ => 0
  matchIndex := fun _ => 0
  replicateInFlight := fun _ => false
  replicatePending := fun _ => false
  electionTimeoutReset := false
  applyNotify := false
  replicateNotify := false

/-- The part of `NewNode` that restores hard state and configuration, preferring a persisted one. -/
def restoreHardState (n : Node) (ps : PersistentState) : Node :=
  { n with
    currentTerm := ps.hard.currentTerm
    votedFor := ps.hard.votedFor
    commitIndex := ps.hard.commitIndex
    config := if 0 < ps.hard.config.members.length then ps.hard.config
      else { members := n.id :: n.peers } }

/-- The part of `NewNode` that restores a snapshot and schedules its delivery. -/
def restoreSnapshot (n : Node) : Option Snapshot → Node
  | none => n
  | some snap =>
    { n with
      snapshotIndex := snap.lastIncludedIndex
      snapshotTerm := snap.lastIncludedTerm
      snapshot := some snap
      pendingSnapshot := some snap
      commitIndex := snap.lastIncludedIndex
      lastApplied := snap.lastIncludedIndex
      config := if 0 < snap.config.members.length then snap.config else n.config }

/-- The part of `NewNode` that trims stored entries covered by the snapshot. -/
def restoreLog (n : Node) (ps : PersistentState) : Node :=
  { n with log := ps.log.drop (min (max 0 (n.snapshotIndex - ps.logBase)) ps.log.length).toNat }

/-- The part of `NewNode` that clamps the commit index to the log. -/
def clampCommitIndex (n : Node) : Node :=
  let commit := if n.commitIndex < n.snapshotIndex then n.snapshotIndex else n.commitIndex
  { n with commitIndex := if commit > n.lastLogIndex then n.lastLogIndex else commit }

end Node

/-- `NewNode`, given what storage loads. -/
def newNode (id : String) (peers : List String) (ps : PersistentState) : Node :=
  ((((Node.blank id (normalizePeers id peers)).restoreHardState ps).restoreSnapshot ps.snapshot).restoreLog
    ps).clampCommitIndex

section NewNode

variable (id : String) (peers : List String) (ps : PersistentState)

/-- A new node has the id it was given. -/
@[simp] theorem newNode_id : (newNode id peers ps).id = id := by
  unfold newNode
  cases ps.snapshot <;> rfl

/-- A new node has the peers it was given, without itself. -/
@[simp] theorem newNode_peers : (newNode id peers ps).peers = normalizePeers id peers := by
  unfold newNode
  cases ps.snapshot <;> rfl

/-- A new node is a follower. -/
@[simp] theorem newNode_role : (newNode id peers ps).role = .follower := by
  unfold newNode
  cases ps.snapshot <;> rfl

/-- A new node is not degraded. -/
@[simp] theorem newNode_degraded : (newNode id peers ps).degraded = false := by
  unfold newNode
  cases ps.snapshot <;> rfl

/-- A new node has the stored term. -/
@[simp] theorem newNode_currentTerm : (newNode id peers ps).currentTerm = ps.hard.currentTerm := by
  unfold newNode
  cases ps.snapshot <;> rfl

/-- A new node has the stored vote. -/
@[simp] theorem newNode_votedFor : (newNode id peers ps).votedFor = ps.hard.votedFor := by
  unfold newNode
  cases ps.snapshot <;> rfl

/-- A new node holds the stored snapshot. -/
@[simp] theorem newNode_snapshot : (newNode id peers ps).snapshot = ps.snapshot := by
  unfold newNode
  cases ps.snapshot <;> rfl

/-- A new node delivers the stored snapshot first. -/
@[simp] theorem newNode_pendingSnapshot : (newNode id peers ps).pendingSnapshot = ps.snapshot := by
  unfold newNode
  cases ps.snapshot <;> rfl

/-- A new node's snapshot index is that of the stored snapshot. -/
@[simp] theorem newNode_snapshotIndex :
    (newNode id peers ps).snapshotIndex = ps.snapshot.elim 0 Snapshot.lastIncludedIndex := by
  unfold newNode
  cases ps.snapshot <;> rfl

/-- A new node's snapshot term is that of the stored snapshot. -/
@[simp] theorem newNode_snapshotTerm :
    (newNode id peers ps).snapshotTerm = ps.snapshot.elim 0 Snapshot.lastIncludedTerm := by
  unfold newNode
  cases ps.snapshot <;> rfl

/-- A new node has applied what the stored snapshot covers. -/
@[simp] theorem newNode_lastApplied :
    (newNode id peers ps).lastApplied = ps.snapshot.elim 0 Snapshot.lastIncludedIndex := by
  unfold newNode
  cases ps.snapshot <;> rfl

/-- A new node drops the stored entries that the stored snapshot covers. -/
theorem newNode_log : (newNode id peers ps).log = ps.log.drop
    (min (max 0 (ps.snapshot.elim 0 Snapshot.lastIncludedIndex - ps.logBase)) ps.log.length).toNat := by
  unfold newNode
  cases ps.snapshot <;> rfl

/-- A new node starts at the commit index of its snapshot, or at the stored one without a snapshot, as
far as the log allows. -/
theorem newNode_commitIndex : (newNode id peers ps).commitIndex =
    min (max (ps.snapshot.elim 0 Snapshot.lastIncludedIndex)
        (ps.snapshot.elim ps.hard.commitIndex Snapshot.lastIncludedIndex))
      (newNode id peers ps).lastLogIndex := by
  have hclamp : ∀ n : Node, n.clampCommitIndex.commitIndex =
      min (max n.snapshotIndex n.commitIndex) n.clampCommitIndex.lastLogIndex := by
    intro n
    change (if (if n.commitIndex < n.snapshotIndex then n.snapshotIndex else n.commitIndex) > n.lastLogIndex
      then n.lastLogIndex else if n.commitIndex < n.snapshotIndex then n.snapshotIndex else n.commitIndex) =
      min (max n.snapshotIndex n.commitIndex) n.lastLogIndex
    split <;> split at * <;> omega
  unfold newNode
  rw [hclamp]
  cases ps.snapshot <;> rfl

/-- A new node uses the configuration of its snapshot, the stored one, or its id and peers, whichever
comes first and is not empty. -/
theorem newNode_config : (newNode id peers ps).config =
    match ps.snapshot with
    | none => ((Node.blank id (normalizePeers id peers)).restoreHardState ps).config
    | some snap => if 0 < snap.config.members.length then snap.config
      else ((Node.blank id (normalizePeers id peers)).restoreHardState ps).config := by
  unfold newNode
  cases ps.snapshot <;> rfl

end NewNode

end ConsensusLab.Raft
