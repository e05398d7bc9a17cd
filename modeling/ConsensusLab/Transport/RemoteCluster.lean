import ConsensusLab.Transport.WireFormat

/-!
# Clusters over gRPC

The cluster model hands requests and responses from node to node as they are. The
deployed nodes talk through adapters: `PeerClient` turns a request into a message of the
protocol buffers, `Server` turns it back, hands it to the node and turns the node's
response into a message, which `PeerClient` turns back again. Only messages are on the
network. Here is the cluster with the adapters in place, and the proof that it has the
same runs: the adapters can be left out of every argument about the protocol, even
though they drop the type of an entry.
-/

namespace ConsensusLab.Transport

open Foundation Raft

/-! ## Adapters -/

/-- A request of the Raft service. -/
inductive RaftPB.Request
  | requestVote (req : RaftPB.RequestVoteRequest)
  | appendEntries (req : RaftPB.AppendEntriesRequest)
  | installSnapshot (req : RaftPB.InstallSnapshotRequest)
  deriving DecidableEq, Repr

/-- A response of the Raft service. -/
inductive RaftPB.Response
  | requestVote (resp : RaftPB.RequestVoteResponse)
  | appendEntries (resp : RaftPB.AppendEntriesResponse)
  | installSnapshot (resp : RaftPB.InstallSnapshotResponse)
  deriving DecidableEq, Repr

/-- What the methods of `PeerClient` send. -/
def sentBy : Request → RaftPB.Request
  | .vote req => .requestVote (requestVoteRequestToPB req)
  | .append req => .appendEntries (appendEntriesRequestToPB req)
  | .install req => .installSnapshot (installSnapshotRequestToPB req)

/-- What the methods of `Server` hand to the node. -/
def handedOver : RaftPB.Request → Request
  | .requestVote req => .vote (requestVoteRequestFromPB req)
  | .appendEntries req => .append (appendEntriesRequestFromPB req)
  | .installSnapshot req => .install (installSnapshotRequestFromPB req)

/-- What the methods of `Server` return if the node returns no error. -/
def returnedBy : Reply → RaftPB.Response
  | .vote resp => .requestVote (requestVoteResponseToPB resp)
  | .append resp => .appendEntries (appendEntriesResponseToPB resp)
  | .install resp => .installSnapshot (installSnapshotResponseToPB resp)

/-- What the methods of `PeerClient` return if the call does not fail. -/
def readBack : RaftPB.Response → Reply
  | .requestVote resp => .vote (requestVoteResponseFromPB resp)
  | .appendEntries resp => .append (appendEntriesResponseFromPB resp)
  | .installSnapshot resp => .install (installSnapshotResponseFromPB resp)

/-- A request through both adapters. -/
theorem handedOver_sentBy (req : Request) : handedOver (sentBy req) = throughWire req := by
  cases req <;> rfl

/-- A response through both adapters. -/
@[simp] theorem readBack_returnedBy (reply : Reply) : readBack (returnedBy reply) = reply := by
  cases reply <;> rfl

/-! ## The cluster with its adapters -/

/-- A call on the network. -/
structure RemoteCall where
  caller : String
  callee : String
  request : RaftPB.Request
  deriving DecidableEq, Repr

/-- The servers as in `Cluster`, and the messages between them. -/
structure RemoteCluster where
  servers : String → Raft.Server
  calls : List RemoteCall
  replies : List (ℕ × RaftPB.Response)
  trace : List Transition

/-- What happens next: as `Action`, with a message for an answer. -/
inductive RemoteAction
  | act (id : String) (input : Input) (fates : List Fate)
  | deliver (handle : ℕ) (fates : List Fate)
  | answer (handle : ℕ) (resp : RaftPB.Response) (fates : List Fate)
  deriving DecidableEq, Repr

namespace RemoteCluster

/-- Record a step of one server: what it sends goes through the adapters. -/
def record (w : RemoteCluster) (id : String) (input : Input) (served : Option ℕ) (after : Raft.Server)
    (effects : Effects) : RemoteCluster where
  servers := Function.update w.servers id after
  calls := w.calls ++ effects.calls.map fun (peer, req) => { caller := id, callee := peer, request := sentBy req }
  replies := w.replies ++ (Cluster.newReplies served effects).map fun (handle, reply) => (handle, returnedBy reply)
  trace := { id, input, before := w.servers id, after, effects } :: w.trace

/-- Let one server take a step, if it can. -/
def advance (w : RemoteCluster) (id : String) (input : Input) (served : Option ℕ) (fates : List Fate) :
    Option RemoteCluster :=
  ((w.servers id).step w.calls.length fates input).map fun (after, effects) => w.record id input served after effects

/-- One step of a cluster with the given members: what a server is given comes out of the adapters. -/
def step (members : List String) (w : RemoteCluster) : RemoteAction → Option RemoteCluster
  | .act id input fates =>
    if id ∈ members ∧ input.isLocal then w.advance id input none fates else none
  | .deliver handle fates => do
    let call ← w.calls[handle]?
    w.advance call.callee (.receive (handedOver call.request)) (some handle) fates
  | .answer handle resp fates => do
    let call ← w.calls[handle]?
    if (handle, resp) ∈ w.replies then w.advance call.caller ((readBack resp).input handle) none fates else none

/-- Every member has just been started over empty storage. -/
def first (members : List String) : RemoteCluster where
  servers := fun id => Raft.Server.boot id members .empty
  calls := []
  replies := []
  trace := []

/-- The cluster as its servers see it. -/
def read (w : RemoteCluster) : Cluster where
  servers := w.servers
  calls := w.calls.map fun call => { caller := call.caller, callee := call.callee, request := handedOver call.request }
  replies := w.replies.map fun (handle, resp) => (handle, readBack resp)
  trace := w.trace

end RemoteCluster

/-- The action as the servers see it. -/
def RemoteAction.read : RemoteAction → Action
  | act id input fates => .act id input fates
  | deliver handle fates => .deliver handle fates
  | answer handle resp fates => .answer handle (readBack resp) fates

/-- The states that allowed runs of a cluster with its adapters reach. What is allowed is said of what the servers
see. -/
abbrev RemoteReachable (m : Membership) (allowed : Cluster → Action → Prop) : RemoteCluster → Prop :=
  Reachable (· = RemoteCluster.first m.ids)
    (LabelledStep (fun w a => allowed w.read a.read) fun w a => w.step m.ids a)

/-! ## The adapters keep what is sent -/

/-- A call with its request on the wire. -/
def remoteCall (call : Call) : RemoteCall where
  caller := call.caller
  callee := call.callee
  request := sentBy call.request

/-- The cluster with all requests and responses on the wire. -/
def remote (c : Cluster) : RemoteCluster where
  servers := c.servers
  calls := c.calls.map remoteCall
  replies := c.replies.map fun (handle, reply) => (handle, returnedBy reply)
  trace := c.trace

/-- The action with its answer on the wire. -/
def remoteAction : Action → RemoteAction
  | .act id input fates => .act id input fates
  | .deliver handle fates => .deliver handle fates
  | .answer handle reply fates => .answer handle (returnedBy reply) fates

@[simp] theorem read_remoteAction (a : Action) : (remoteAction a).read = a := by
  cases a with
  | act | deliver => rfl
  | answer => simp only [remoteAction, RemoteAction.read, readBack_returnedBy]

variable {m : Membership} {allowed : Cluster → Action → Prop} {members : List String} {c : Cluster}

/-- Commands arrive as they were sent. -/
theorem CommandsOnly.handedOver (h : CommandsOnly c) {call : Call} (hcall : call ∈ c.calls) :
    handedOver (sentBy call.request) = call.request := by
  rw [handedOver_sentBy]
  cases hrequest : call.request with
  | vote | install => rfl
  | append req =>
    exact congrArg Request.append ((appendEntriesRequest_roundTrip_iff req).mpr (h.calls call hcall req hrequest))

/-- What the servers see of the messages is what was sent. -/
theorem CommandsOnly.read_remote (h : CommandsOnly c) : (remote c).read = c := by
  have hcalls : (remote c).read.calls = c.calls := by
    change (c.calls.map remoteCall).map _ = c.calls
    rw [List.map_map]
    refine (List.map_congr_left fun call hcall => ?_).trans (List.map_id _)
    change ({ call with request := Transport.handedOver (sentBy call.request) } : Call) = call
    rw [h.handedOver hcall]
  have hreplies : (remote c).read.replies = c.replies := by
    change (c.replies.map _).map _ = c.replies
    rw [List.map_map]
    refine (List.map_congr_left fun reply _ => ?_).trans (List.map_id _)
    exact Prod.ext rfl (readBack_returnedBy reply.2)
  obtain ⟨servers, calls, replies, trace⟩ := c
  exact (Cluster.mk.injEq ..).mpr ⟨rfl, hcalls, hreplies, rfl⟩

/-- A step recorded on the wire is the recorded step on the wire. -/
theorem record_remote (id : String) (input : Input) (served : Option ℕ) (after : Raft.Server) (effects : Effects) :
    (remote c).record id input served after effects = remote (c.record id input served after effects) := by
  simp only [RemoteCluster.record, remote, Cluster.record, List.map_append, List.map_map]
  rfl

/-- A server takes the same step in both clusters. -/
theorem advance_remote (id : String) (input : Input) (served : Option ℕ) (fates : List Fate) :
    (remote c).advance id input served fates = (c.advance id input served fates).map remote := by
  have hlength : (remote c).calls.length = c.calls.length := List.length_map _
  rw [RemoteCluster.advance, Cluster.advance, hlength, Option.map_map]
  refine congrArg (fun f => Option.map f _) (funext fun result => ?_)
  exact record_remote id input served result.1 result.2

/-- An action has the same effect in both clusters. -/
theorem CommandsOnly.step_remote (h : CommandsOnly c) (a : Action) :
    (remote c).step members (remoteAction a) = (c.step members a).map remote := by
  cases a with
  | act id input fates =>
    simp only [remoteAction, RemoteCluster.step, Cluster.step]
    split
    · exact advance_remote id input none fates
    · rfl
  | deliver handle fates =>
    simp only [remoteAction, RemoteCluster.step, Cluster.step, remote, List.getElem?_map]
    cases hcall : c.calls[handle]? with
    | none => rfl
    | some call =>
      have harrives := h.handedOver (List.mem_of_getElem? hcall)
      simp only [Option.map_some, Option.bind_eq_bind, Option.bind_some, remoteCall, harrives]
      exact advance_remote call.callee _ (some handle) fates
  | answer handle reply fates =>
    have hsent : (handle, returnedBy reply) ∈ (remote c).replies ↔ (handle, reply) ∈ c.replies := by
      refine ⟨fun hmem => ?_, fun hmem => List.mem_map.mpr ⟨_, hmem, rfl⟩⟩
      obtain ⟨⟨handle', reply'⟩, hmem', heq⟩ := List.mem_map.mp hmem
      obtain ⟨rfl, hreply⟩ := Prod.mk.inj heq
      -- Reading a response back shows that no two are alike on the wire.
      rw [← readBack_returnedBy reply, ← hreply, readBack_returnedBy]
      exact hmem'
    simp only [remoteAction, RemoteCluster.step, Cluster.step, hsent, readBack_returnedBy]
    change ((c.calls.map remoteCall)[handle]?.bind _) = _
    rw [List.getElem?_map]
    cases hcall : c.calls[handle]? with
    | none => rfl
    | some call =>
      simp only [Option.map_some, Option.bind_eq_bind, Option.bind_some, remoteCall]
      split
      · exact advance_remote call.caller _ none fates
      · rfl

/-- Every action that is possible on the wire is one of the cluster. -/
theorem exists_action {b : RemoteAction} {w : RemoteCluster} (hstep : (remote c).step members b = some w) :
    ∃ a, b = remoteAction a := by
  cases b with
  | act id input fates => exact ⟨.act id input fates, rfl⟩
  | deliver handle fates => exact ⟨.deliver handle fates, rfl⟩
  | answer handle resp fates =>
    simp only [RemoteCluster.step] at hstep
    obtain ⟨call, _, hanswer⟩ := Option.bind_eq_some_iff.mp hstep
    split at hanswer
    · rename_i hmem
      obtain ⟨⟨handle', reply⟩, _, heq⟩ := List.mem_map.mp hmem
      obtain ⟨rfl, rfl⟩ := Prod.mk.inj heq
      exact ⟨.answer handle' reply fates, rfl⟩
    · cases hanswer

/-- All entries of a reachable cluster are commands, whatever the runs are allowed to do. -/
theorem commandsOnly_of_allowed (run : ClusterReachable m allowed c) : CommandsOnly c := by
  refine commandsOnly_of_reachable (run.mono fun c c' hstep => ?_)
  obtain ⟨a, _, htaken⟩ := hstep
  exact ⟨a, trivial, htaken⟩

/-- **The adapters change nothing.** Whatever runs are allowed to do, the states that they reach in a cluster that
talks through the gRPC adapters are exactly those of the cluster without adapters, with its requests and responses
written as messages. -/
theorem remote_runs_are_cluster_runs (m : Membership) (allowed : Cluster → Action → Prop) (w : RemoteCluster) :
    RemoteReachable m allowed w ↔ ∃ c, ClusterReachable m allowed c ∧ w = remote c := by
  constructor
  · intro run
    refine run.simulate (R := fun w c => w = remote c) ?_ ?_
    · intro w hfirst
      exact ⟨Cluster.first m.ids, rfl, hfirst⟩
    · intro w w' c hc hw ⟨b, hallowed, hstep⟩
      subst hw
      have hcommands := commandsOnly_of_allowed hc
      obtain ⟨a, rfl⟩ := exists_action hstep
      rw [hcommands.read_remote, read_remoteAction] at hallowed
      obtain ⟨c', hstep', rfl⟩ := Option.map_eq_some_iff.mp ((hcommands.step_remote a).symm.trans hstep)
      exact ⟨c', .single ⟨a, hallowed, hstep'⟩, rfl⟩
  · rintro ⟨c, run, rfl⟩
    refine run.invariant (P := fun c => RemoteReachable m allowed (remote c)) ?_ ?_
    · intro c hfirst
      cases hfirst
      exact .first rfl
    · intro c c' hc hremote ⟨a, hallowed, hstep⟩
      have hcommands := commandsOnly_of_allowed hc
      have hstep' : (remote c).step m.ids (remoteAction a) = some (remote c') :=
        (hcommands.step_remote a).trans (Option.map_eq_some_iff.mpr ⟨c', hstep, rfl⟩)
      have hallowed' : allowed (remote c).read (remoteAction a).read := by
        rw [hcommands.read_remote, read_remoteAction]
        exact hallowed
      exact .next hremote ⟨remoteAction a, hallowed', hstep'⟩

end ConsensusLab.Transport
