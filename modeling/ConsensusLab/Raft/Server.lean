import ConsensusLab.Foundation.StorageCalls
import ConsensusLab.Raft.Replication

/-!
# A running node

The process around a node: its main loop, its apply loop, the goroutines that wait for
RPC answers, and the disk. A step executes one section, or one of the few actions
outside the mutex, of one of these; which one, and what the environment contributes to
it, is the step's input. A process that crashes or panics comes back at once through
`NewNode`, with nothing but its disk.
-/

namespace ConsensusLab.Raft

open Foundation

/-- A request of one of the three RPCs. -/
inductive Request
  | vote (req : RequestVoteRequest)
  | append (req : AppendEntriesRequest)
  | install (req : InstallSnapshotRequest)
  deriving DecidableEq, Repr

/-- A response of one of the three RPCs. -/
inductive Reply
  | vote (resp : RequestVoteResponse)
  | append (resp : AppendEntriesResponse)
  | install (resp : InstallSnapshotResponse)
  deriving DecidableEq, Repr

/-- The section that serves a request. -/
def Node.handle (n : Node) : Request → Section (Node × Except RaftError Reply)
  | .vote req => do
    let (n', answer) ← n.handleRequestVote req
    pure (n', answer.map .vote)
  | .append req => do
    let (n', answer) ← n.handleAppendEntries req
    pure (n', answer.map .append)
  | .install req => do
    let (n', answer) ← n.handleInstallSnapshot req
    pure (n', answer.map .install)

/-- The local variables of `runCandidate` while it collects votes. -/
structure Poll where
  request : RequestVoteRequest
  votes : ℕ
  majority : ℕ
  /-- The calls whose responses have not been read from `voteCh`. -/
  awaiting : List ℕ
  deriving DecidableEq, Repr

/-- Where the goroutine of `run` stands. -/
inductive MainLoop
  /-- At the top of the loop in `run`. -/
  | idle
  /-- Waiting in `runFollower`. -/
  | following
  /-- In `runCandidate`, before its first section. -/
  | starting
  /-- In `runCandidate`, after its first section and before it reads the quorum size. -/
  | opening (req : RequestVoteRequest)
  /-- In `runCandidate`, collecting votes. -/
  | polling (poll : Poll)
  /-- In `runLeader`, with the peers the current round still has to visit. -/
  | leading (todo : List String)
  /-- In `runLeader`, between `installSnapshotRequestForPeer` and `appendEntriesRequestForPeer`. -/
  | appending (peer : String) (todo : List String)
  /-- `run` has returned because the node is degraded. -/
  | stopped
  deriving DecidableEq, Repr

/-- Where the goroutine of `runApplyLoop` stands. -/
inductive ApplyLoop
  /-- Waiting for `applyNotifyCh`. -/
  | parked
  /-- At the top of the loop that drains pending snapshots. -/
  | draining
  | sendingSnapshot (snap : Snapshot)
  | sentSnapshot (snap : Snapshot)
  /-- At the top of the loop that applies entries. -/
  | applying
  | sendingEntry (entry : LogEntry) (index : Int)
  deriving DecidableEq, Repr

/-- How far a `sendAppendEntries` or `sendInstallSnapshot` goroutine has come. -/
inductive SendPhase
  | waitingAppend (req : AppendEntriesRequest)
  | waitingInstall (req : InstallSnapshotRequest)
  /-- Behind the response, with the signals that it has still to give. -/
  | signalling (signals : Node.Signals)
  /-- At its deferred function. -/
  | finishing
  deriving DecidableEq, Repr

/-- A `sendAppendEntries` or `sendInstallSnapshot` goroutine, named by its call. It counts from the section that
builds its request on: until the `go` statement behind that section, nobody else can tell the difference. -/
structure Send where
  handle : ℕ
  peer : String
  phase : SendPhase
  deriving DecidableEq, Repr

/-- A process: a node and the goroutines around it. -/
structure NodeProcess where
  node : Node
  main : MainLoop
  applier : ApplyLoop
  sends : List Send
  /-- Send goroutines behind the locked part of their deferred function, with `notifyReplicate` still to call. -/
  notifying : ℕ

/-- A process and its disk. -/
structure Server extends NodeProcess where
  disk : PersistentState

/-- What the environment makes a process do next. -/
inductive Input
  | restart
  | dispatch
  | electionReset
  | electionTimeout
  | startElection
  | openPoll
  | voteAnswered (handle : ℕ) (resp : RequestVoteResponse)
  | pollTimeout
  | startRound (notified : Bool)
  | visit (peer : String)
  | appendTurn
  | appendAnswered (handle : ℕ) (resp : AppendEntriesResponse)
  | installAnswered (handle : ℕ) (resp : InstallSnapshotResponse)
  | callFailed (handle : ℕ)
  | signal (handle : ℕ)
  | finish (handle : ℕ)
  | notify
  | receive (req : Request)
  | startCommand (cmd : Bytes)
  | takeSnapshot (index : Int) (data : Bytes)
  | wakeApply
  | drain
  | sendSnapshot
  | recordSnapshot
  | pickEntry
  | sendEntry
  deriving DecidableEq, Repr

/-- What a step of a process shows to its environment. -/
structure Effects where
  /-- RPCs started, with the peer each goes to. -/
  calls : List (String × Request) := []
  /-- The response of a handler that returned no error. -/
  reply : Option Reply := none
  /-- A message sent on `applyCh`. -/
  delivered : Option ApplyMsg := none
  /-- The index at which `StartCommand` accepted a command. -/
  accepted : Option Int := none
  /-- An error returned to the caller. -/
  failed : Option RaftError := none
  /-- The process was lost, by a panic (`true`) or a crash (`false`). -/
  lost : Option Bool := none
  deriving DecidableEq, Repr

namespace NodeProcess

/-- What a process does in a step: something at once, or a critical section and what it makes of the section's
result. -/
inductive Plan
  | immediate (result : NodeProcess × Effects)
  | critical {A : Type} (program : Section A) (next : A → NodeProcess × Effects)

/-- The send goroutine of a call. -/
def findSend (p : NodeProcess) (handle : ℕ) : Option Send :=
  p.sends.find? (·.handle = handle)

/-- Move a send goroutine to another phase. -/
def setPhase (sends : List Send) (handle : ℕ) (phase : SendPhase) : List Send :=
  sends.map fun s => if s.handle = handle then { s with phase := phase } else s

/-- One turn of the loop in `run`: read the role and enter its loop. -/
def dispatch (p : NodeProcess) : NodeProcess :=
  if p.node.degraded then { p with main := .stopped }
  else
    match p.node.role with
    | .follower => { p with main := .following }
    | .candidate => { p with main := .starting }
    | .leader => { p with main := .leading [] }

/-- The first section of `runCandidate`. -/
def planStartElection (p : NodeProcess) : Plan :=
  .critical p.node.startElection fun (node, req) => ({ p with node := node, main := req.elim .idle .opening }, {})

/-- `runCandidate` reads the quorum size and starts one goroutine for each peer. -/
def stepOpenPoll (p : NodeProcess) (fresh : ℕ) (req : RequestVoteRequest) : NodeProcess × Effects :=
  let poll : Poll :=
    { request := req, votes := 1, majority := p.node.quorumSize
      awaiting := List.range' fresh p.node.peers.length }
  ({ p with main := .polling poll }, { calls := p.node.peers.map fun peer => (peer, .vote req) })

/-- `runCandidate` reads one response from `voteCh`. -/
def planVoteAnswered (p : NodeProcess) (poll : Poll) (handle : ℕ) (resp : RequestVoteResponse) : Plan :=
  .critical (p.node.handleVoteResponse poll.votes poll.majority resp) fun (node, votes) =>
    let main := votes.elim .idle fun count =>
      .polling { poll with votes := count, awaiting := poll.awaiting.erase handle }
    ({ p with node := node, main := main }, {})

/-- `runLeader` asks `installSnapshotRequestForPeer` about a peer. -/
def planVisit (p : NodeProcess) (fresh : ℕ) (peer : String) (todo : List String) : Plan :=
  .critical (p.node.installSnapshotRequestForPeer peer) fun (node, answer) =>
    match answer with
    | none => ({ p with node := node, main := .idle }, {})
    | some none => ({ p with node := node, main := .appending peer (todo.erase peer) }, {})
    | some (some req) =>
      ({ p with
          node := node
          main := .leading (todo.erase peer)
          sends := { handle := fresh, peer := peer, phase := .waitingInstall req } :: p.sends },
        { calls := [(peer, .install req)] })

/-- `runLeader` asks `appendEntriesRequestForPeer` about a peer. -/
def planAppendTurn (p : NodeProcess) (fresh : ℕ) (peer : String) (todo : List String) : Plan :=
  .critical (p.node.appendEntriesRequestForPeer peer) fun (node, answer) =>
    match answer with
    | none => ({ p with node := node, main := .idle }, {})
    | some none => ({ p with node := node, main := .leading todo }, {})
    | some (some req) =>
      ({ p with
          node := node
          main := .leading todo
          sends := { handle := fresh, peer := peer, phase := .waitingAppend req } :: p.sends },
        { calls := [(peer, .append req)] })

/-- `sendAppendEntries` processes its response. -/
def planAppendAnswered (p : NodeProcess) (send : Send) (req : AppendEntriesRequest) (resp : AppendEntriesResponse) :
    Plan :=
  .critical (p.node.handleAppendEntriesResponse send.peer req resp) fun (node, signals) =>
    ({ p with node := node, sends := setPhase p.sends send.handle (.signalling signals) }, {})

/-- `sendInstallSnapshot` processes its response. -/
def planInstallAnswered (p : NodeProcess) (send : Send) (req : InstallSnapshotRequest)
    (resp : InstallSnapshotResponse) : Plan :=
  .critical (p.node.handleInstallSnapshotResponse send.peer req resp) fun node =>
    ({ p with node := node, sends := setPhase p.sends send.handle .finishing }, {})

/-- `sendAppendEntries` notifies the loops after it has released the mutex. -/
def stepSignal (p : NodeProcess) (send : Send) (signals : Node.Signals) : NodeProcess × Effects :=
  let applied := if signals.apply then p.node.notifyApply else p.node
  let node := if signals.replicate then applied.signalReplicate else applied
  ({ p with node := node, sends := setPhase p.sends send.handle .finishing }, {})

/-- The locked part of the deferred function of a send goroutine, which then ends or has still to notify. -/
def stepFinish (p : NodeProcess) (send : Send) : NodeProcess × Effects :=
  let (node, notify) := p.node.releaseFlight send.peer
  ({ p with
      node := node
      sends := p.sends.filter fun s => s.handle ≠ send.handle
      notifying := if notify then p.notifying + 1 else p.notifying }, {})

/-- The answer of a handler, as the RPC layer returns it. -/
def handled {R : Type} (p : NodeProcess) (wrap : R → Reply) : Node × Except RaftError R → NodeProcess × Effects
  | (node, .ok resp) => ({ p with node := node }, { reply := some (wrap resp) })
  | (node, .error e) => ({ p with node := node }, { failed := some e })

/-- A handler serves a request. -/
def planReceive (p : NodeProcess) : Request → Plan
  | .vote req => .critical (p.node.handleRequestVote req) (p.handled .vote)
  | .append req => .critical (p.node.handleAppendEntries req) (p.handled .append)
  | .install req => .critical (p.node.handleInstallSnapshot req) (p.handled .install)

/-- The state machine proposes a command. -/
def planStartCommand (p : NodeProcess) (cmd : Bytes) : Plan :=
  .critical (p.node.startCommand cmd) fun (node, index) => ({ p with node := node }, { accepted := index })

/-- The state machine compacts the log. -/
def planTakeSnapshot (p : NodeProcess) (index : Int) (data : Bytes) : Plan :=
  .critical (p.node.takeSnapshot index data) fun (node, result) =>
    match result with
    | .ok () => ({ p with node := node }, {})
    | .error e => ({ p with node := node }, { failed := some e })

/-- The apply loop takes the pending snapshot or goes on to the entries. -/
def stepDrain (p : NodeProcess) : NodeProcess × Effects :=
  let (node, pending) := p.node.takePendingSnapshot
  ({ p with node := node, applier := pending.elim .applying .sendingSnapshot }, {})

/-- The apply loop picks the next entry or goes back to waiting. -/
def planPickEntry (p : NodeProcess) : Plan :=
  .critical p.node.nextToApply fun (node, next) =>
    let applier := next.elim .parked fun (entry, index) => .sendingEntry entry index
    ({ p with node := node, applier := applier }, {})

/-- The steps of a process; `fresh` names the next call. There is no step if the process is not where the input
needs it. -/
def plan (p : NodeProcess) (fresh : ℕ) : Input → Option Plan
  | .restart => none
  | .dispatch =>
    match p.main with
    | .idle => some (.immediate (p.dispatch, {}))
    | _ => none
  | .electionReset =>
    match p.main with
    | .following =>
      if p.node.electionTimeoutReset then
        some (.immediate ({ p with node := { p.node with electionTimeoutReset := false } }, {}))
      else none
    | _ => none
  | .electionTimeout =>
    match p.main with
    | .following => some (.immediate ({ p with node := p.node.convertToCandidate, main := .idle }, {}))
    | _ => none
  | .startElection =>
    match p.main with
    | .starting => some p.planStartElection
    | _ => none
  | .openPoll =>
    match p.main with
    | .opening req => some (.immediate (p.stepOpenPoll fresh req))
    | _ => none
  | .voteAnswered handle resp =>
    match p.main with
    | .polling poll => if handle ∈ poll.awaiting then some (p.planVoteAnswered poll handle resp) else none
    | _ => none
  | .pollTimeout =>
    match p.main with
    | .polling _ => some (.immediate ({ p with main := .idle }, {}))
    | _ => none
  | .startRound notified =>
    match p.main with
    | .leading [] =>
      if notified then
        if p.node.replicateNotify then
          some (.immediate ({ p with
            node := { p.node with replicateNotify := false }, main := .leading p.node.peers }, {}))
        else none
      else some (.immediate ({ p with main := .leading p.node.peers }, {}))
    | _ => none
  | .visit peer =>
    match p.main with
    | .leading todo => if peer ∈ todo then some (p.planVisit fresh peer todo) else none
    | _ => none
  | .appendTurn =>
    match p.main with
    | .appending peer todo => some (p.planAppendTurn fresh peer todo)
    | _ => none
  | .appendAnswered handle resp =>
    match p.findSend handle with
    | some send =>
      match send.phase with
      | .waitingAppend req => some (p.planAppendAnswered send req resp)
      | _ => none
    | none => none
  | .installAnswered handle resp =>
    match p.findSend handle with
    | some send =>
      match send.phase with
      | .waitingInstall req => some (p.planInstallAnswered send req resp)
      | _ => none
    | none => none
  | .callFailed handle =>
    match p.findSend handle with
    | some send =>
      match send.phase with
      | .waitingAppend _ | .waitingInstall _ =>
        some (.immediate ({ p with sends := setPhase p.sends handle .finishing }, {}))
      | _ => none
    | none => none
  | .signal handle =>
    match p.findSend handle with
    | some send =>
      match send.phase with
      | .signalling signals => some (.immediate (p.stepSignal send signals))
      | _ => none
    | none => none
  | .finish handle =>
    match p.findSend handle with
    | some send =>
      match send.phase with
      | .finishing => some (.immediate (p.stepFinish send))
      | _ => none
    | none => none
  | .notify =>
    match p.notifying with
    | rest + 1 => some (.immediate ({ p with node := p.node.signalReplicate, notifying := rest }, {}))
    | 0 => none
  | .receive req => some (p.planReceive req)
  | .startCommand cmd => some (p.planStartCommand cmd)
  | .takeSnapshot index data => some (p.planTakeSnapshot index data)
  | .wakeApply =>
    match p.applier with
    | .parked =>
      if p.node.applyNotify then
        some (.immediate ({ p with node := { p.node with applyNotify := false }, applier := .draining }, {}))
      else none
    | _ => none
  | .drain =>
    match p.applier with
    | .draining => some (.immediate p.stepDrain)
    | _ => none
  | .sendSnapshot =>
    match p.applier with
    | .sendingSnapshot snap =>
      some (.immediate ({ p with applier := .sentSnapshot snap },
        { delivered := some (.snapshot snap.data snap.lastIncludedIndex) }))
    | _ => none
  | .recordSnapshot =>
    match p.applier with
    | .sentSnapshot snap =>
      some (.immediate ({ p with node := p.node.snapshotApplied snap, applier := .draining }, {}))
    | _ => none
  | .pickEntry =>
    match p.applier with
    | .applying => some p.planPickEntry
    | _ => none
  | .sendEntry =>
    match p.applier with
    | .sendingEntry entry index =>
      some (.immediate ({ p with applier := .applying }, { delivered := some (.command entry.command index) }))
    | _ => none

/-- A process right after `NewNode` and `Run`, given what storage loads. -/
def boot (id : String) (peers : List String) (ps : PersistentState) : NodeProcess where
  node := (newNode id peers ps).notifyApply
  main := .idle
  applier := .parked
  sends := []
  notifying := 0

end NodeProcess

namespace Server

/-- A process that has just been started on a disk. -/
def boot (id : String) (peers : List String) (disk : PersistentState) : Server where
  toNodeProcess := .boot id peers disk
  disk := disk

/-- Start again from a disk. -/
def reboot (sv : Server) (disk : PersistentState) : Server :=
  boot sv.node.id sv.node.peers disk

/-- Run a section on the server's disk and continue with its result, or lose the process. -/
def perform {A : Type} (sv : Server) (fates : List Fate) (p : Section A)
    (next : A → PersistentState → Server × Effects) : Server × Effects :=
  match p.run fates sv.disk with
  | (.returned a, disk) => next a disk
  | (.faulted, disk) => (sv.reboot disk, { lost := some true })
  | (.crashed, disk) => (sv.reboot disk, { lost := some false })

/-- A process that has gone on, with a disk. -/
def onDisk (disk : PersistentState) (result : NodeProcess × Effects) : Server × Effects :=
  ({ toNodeProcess := result.1, disk := disk }, result.2)

/-- Carry out a plan. -/
def carryOut (sv : Server) (fates : List Fate) : NodeProcess.Plan → Server × Effects
  | .immediate result => onDisk sv.disk result
  | .critical program next => sv.perform fates program fun a disk => onDisk disk (next a)

/-- One step of a server; `fates` says what becomes of the storage calls. -/
def step (sv : Server) (fresh : ℕ) (fates : List Fate) : Input → Option (Server × Effects)
  | .restart => some (sv.reboot sv.disk, {})
  | input => (sv.plan fresh input).map (sv.carryOut fates)

/-- The storage calls of a step that take effect. -/
def performed (sv : Server) (fresh : ℕ) (fates : List Fate) (input : Input) : List StorageCall :=
  match sv.plan fresh input with
  | some (.critical program _) => program.performed fates
  | _ => []

end Server

end ConsensusLab.Raft
