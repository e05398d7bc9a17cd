import ConsensusLab.Raft.LogEvents

/-!
# Runs of a single server

A node is run on its own, with any requests, responses and calls of its state machine,
and any fates of its storage calls, in any order. What holds in every such run holds
for a member of any cluster, whatever the other members do.
-/

namespace ConsensusLab.Raft

open Foundation

/-- What is done to a server: the next call's name, the fates of its storage calls, and its input. -/
structure Drive where
  fresh : ℕ
  fates : List Fate
  input : Input
  deriving DecidableEq, Repr

/-- The server after a drive. -/
def Server.drive (sv : Server) (drive : Drive) : Option Server :=
  (sv.step drive.fresh drive.fates drive.input).map Prod.fst

/-- A server that `NewNode` has just made from some stored state. -/
def Server.IsNew (sv : Server) : Prop :=
  ∃ id peers disk, sv = Server.boot id peers disk

/-- The states that allowed runs of a server reach. -/
abbrev ServerReachable (allowed : Server → Drive → Prop) : Server → Prop :=
  Reachable Server.IsNew (LabelledStep allowed Server.drive)

/-- What executing drives on a new server computes is computed of a reachable state. -/
theorem exists_serverReachable_of_execute {allowed : Server → Drive → Prop}
    [∀ sv drive, Decidable (allowed sv drive)] {drives : List Drive} {id : String} {peers : List String}
    {disk : PersistentState} {A : Type} {f : Server → A} {a : A}
    (h : (execute allowed Server.drive (Server.boot id peers disk) drives).map f = some a) :
    ∃ sv, ServerReachable allowed sv ∧ f sv = a :=
  exists_reachable_of_execute ⟨id, peers, disk, rfl⟩ h

/-- The largest `int64`. -/
def maxInt64 : Int := 9223372036854775807

/-- The term and the last index are values of type `int64`. -/
def Node.InRange (n : Node) : Prop :=
  n.currentTerm ≤ maxInt64 ∧ n.lastLogIndex ≤ maxInt64

instance (n : Node) : Decidable n.InRange :=
  inferInstanceAs (Decidable (_ ∧ _))

/-- The term and the last index are in range before and after the step. Terms and indices are unbounded in the model;
the program increments both without a check, and takes the same step as long as they are in range. -/
def Server.Fits (sv : Server) (drive : Drive) : Prop :=
  sv.node.InRange ∧ ∀ result ∈ sv.step drive.fresh drive.fates drive.input, result.1.node.InRange

instance (sv : Server) (drive : Drive) : Decidable (sv.Fits drive) :=
  inferInstanceAs (Decidable (_ ∧ _))

/-- The requests by which an input can write to the log. -/
def Input.appends : Input → Option AppendEntriesRequest
  | receive (.append req) => some req
  | _ => none

/-- A drive without storage faults. -/
def Drive.of (input : Input) : Drive where
  fresh := 0
  fates := []
  input := input

/-- The entries that leader `b` of term 1 sends to a node that has everything before them. -/
def entriesOf (prevLogIndex prevLogTerm : Int) (entries : List LogEntry) (leaderCommit : Int) : Input :=
  .receive (.append { term := 1, leaderID := "b", prevLogIndex, prevLogTerm, entries, leaderCommit })

/-- The snapshot that leader `b` of term 1 sends. -/
def snapshotOf (index : Int) : Input :=
  .receive (.install {
    term := 1
    leaderID := "b"
    lastIncludedIndex := index
    lastIncludedTerm := 1
    config := { members := ["a", "b", "c"] }
    data := [] })

/-- A command of term 1. -/
def commandEntry (byte : UInt8) : LogEntry where
  term := 1
  type := entryCommand
  command := [byte]

end ConsensusLab.Raft
