import ConsensusLab.Foundation.StorageProgram

/-!
# Messages, entries and stored state of a Raft node

The data types of the raft package, with `int64` as `Int`, byte slices as lists of
bytes and node ids as strings, where the empty string stands for no node. A Go map read
at a missing key yields zero, so maps are total functions.
-/

namespace ConsensusLab.Raft

open Foundation

/-- The contents of a byte slice. -/
abbrev Bytes := List UInt8

/-- The current Raft role of a node. -/
inductive Role
  | follower
  | candidate
  | leader
  deriving DecidableEq, Repr

/-- The set of member ids for quorum calculation. -/
structure ClusterConfig where
  members : List String
  deriving DecidableEq, Repr

/-- The kind of a log entry payload; `entryCommand` is the only one in use. -/
abbrev EntryType := UInt8

/-- `EntryCommand`. -/
def entryCommand : EntryType := 0

/-- A single entry in the Raft replicated log. -/
structure LogEntry where
  term : Int
  type : EntryType
  command : Bytes
  deriving DecidableEq, Repr

/-- The application state at a particular log index. -/
structure Snapshot where
  lastIncludedIndex : Int
  lastIncludedTerm : Int
  config : ClusterConfig
  data : Bytes
  deriving DecidableEq, Repr

/-- Sent by candidates during leader election. -/
structure RequestVoteRequest where
  term : Int
  candidateID : String
  lastLogIndex : Int
  lastLogTerm : Int
  deriving DecidableEq, Repr

/-- Returned by peers in response to RequestVote. -/
structure RequestVoteResponse where
  term : Int
  voteGranted : Bool
  deriving DecidableEq, Repr

/-- Sent by the leader for replication and heartbeats. -/
structure AppendEntriesRequest where
  term : Int
  leaderID : String
  prevLogIndex : Int
  prevLogTerm : Int
  entries : List LogEntry
  leaderCommit : Int
  deriving DecidableEq, Repr

/-- Returned by followers for AppendEntries. -/
structure AppendEntriesResponse where
  term : Int
  success : Bool
  conflictTerm : Int
  conflictIndex : Int
  deriving DecidableEq, Repr

/-- Sent by the leader when the entries a follower needs have been compacted. -/
structure InstallSnapshotRequest where
  term : Int
  leaderID : String
  lastIncludedIndex : Int
  lastIncludedTerm : Int
  config : ClusterConfig
  data : Bytes
  deriving DecidableEq, Repr

/-- Acknowledges snapshot installation. -/
structure InstallSnapshotResponse where
  term : Int
  deriving DecidableEq, Repr

/-- Delivered by the consensus layer to the state machine: a command or a snapshot. -/
inductive ApplyMsg
  | command (command : Bytes) (index : Int)
  | snapshot (data : Bytes) (index : Int)
  deriving DecidableEq, Repr

/-- The errors that the operations of a node return. -/
inductive RaftError
  | nodeDegraded
  | storage
  | snapshotBeyondLog (index last : Int)
  deriving DecidableEq, Repr

/-- Persistent Raft metadata required across restarts. -/
structure HardState where
  currentTerm : Int
  votedFor : String
  commitIndex : Int
  config : ClusterConfig
  deriving DecidableEq, Repr

/-- What `Storage.Load` returns: stored log entries represent the indices after `logBase`. -/
structure PersistentState where
  hard : HardState
  logBase : Int
  snapshot : Option Snapshot
  log : List LogEntry
  deriving DecidableEq, Repr

/-- Storage to which nothing has been written. -/
def PersistentState.empty : PersistentState where
  hard := { currentTerm := 0, votedFor := "", commitIndex := 0, config := { members := [] } }
  logBase := 0
  snapshot := none
  log := []

/-- The writing calls of the `Storage` interface. -/
inductive StorageCall
  | saveHardState (state : HardState)
  | appendLog (entries : List LogEntry)
  | truncateLog (keepN : Int)
  | setLog (baseIndex : Int) (entries : List LogEntry)
  | saveSnapshot (snap : Snapshot)
  deriving DecidableEq, Repr

/-- The effect of a successful call, as `InMemoryStorage` implements it. Clamping `keepN` to the
stored log is what `toNat` and `take` do. -/
def StorageCall.effect : StorageCall → PersistentState → PersistentState
  | saveHardState state, ps => { ps with hard := state }
  | appendLog entries, ps => { ps with log := ps.log ++ entries }
  | truncateLog keepN, ps => { ps with log := ps.log.take keepN.toNat }
  | setLog baseIndex entries, ps => { ps with logBase := baseIndex, log := entries }
  | saveSnapshot snap, ps => { ps with snapshot := some snap }

/-- A stretch of code between taking and releasing the node's mutex. -/
abbrev Section := StorageProgram StorageCall

/-- Run a section against a disk. -/
abbrev Section.run {A : Type} (p : Section A) (fates : List Fate) (disk : PersistentState) :
    Outcome A × PersistentState :=
  p.exec StorageCall.effect fates disk

/-- `StorageProgram.Ensures` for the calls of the `Storage` interface. -/
abbrev Section.Ensures {A : Type} (p : Section A) (faults : Prop) (lost : PersistentState → Prop)
    (post : A → PersistentState → Prop) (disk : PersistentState) : Prop :=
  StorageProgram.Ensures StorageCall.effect faults lost post p disk

end ConsensusLab.Raft
