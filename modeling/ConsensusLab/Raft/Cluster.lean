import ConsensusLab.Raft.Server
import ConsensusLab.Foundation.Reachability

/-!
# A cluster of nodes and the network between them

Every RPC started is kept for good, so a request can be delivered late, repeatedly or
never, and in any order; every response is kept too, and the calling goroutine reads at
most one of those to its own call. The steps taken so far are on record, because some
properties compare what happened at different times.
-/

namespace ConsensusLab.Raft

open Foundation

/-- An RPC that a node has started. -/
structure Call where
  caller : String
  callee : String
  request : Request
  deriving DecidableEq, Repr

/-- A step that a server has taken. -/
structure Transition where
  id : String
  input : Input
  before : Server
  after : Server
  effects : Effects

/-- All servers, all calls and responses so far, and all steps so far, latest first. -/
structure Cluster where
  servers : String → Server
  /-- A call is named by its position in this list. -/
  calls : List Call
  replies : List (ℕ × Reply)
  trace : List Transition

/-- What happens next in a cluster. -/
inductive Action
  /-- A server takes a step of its own. -/
  | act (id : String) (input : Input) (fates : List Fate)
  /-- A call reaches its callee. -/
  | deliver (handle : ℕ) (fates : List Fate)
  /-- A response reaches the goroutine that waits for it. -/
  | answer (handle : ℕ) (reply : Reply) (fates : List Fate)
  deriving DecidableEq, Repr

/-- The inputs that do not come from the network. -/
def Input.isLocal : Input → Bool
  | receive _ | voteAnswered _ _ | appendAnswered _ _ | installAnswered _ _ => false
  | _ => true

/-- The input by which a goroutine reads a response. -/
def Reply.input (handle : ℕ) : Reply → Input
  | vote resp => .voteAnswered handle resp
  | append resp => .appendAnswered handle resp
  | install resp => .installAnswered handle resp

namespace Cluster

/-- The responses that a step adds: one if it served a call without an error. -/
def newReplies (served : Option ℕ) (effects : Effects) : List (ℕ × Reply) :=
  match served, effects.reply with
  | some handle, some reply => [(handle, reply)]
  | _, _ => []

/-- Record a step of one server. -/
def record (c : Cluster) (id : String) (input : Input) (served : Option ℕ) (after : Server)
    (effects : Effects) : Cluster where
  servers := Function.update c.servers id after
  calls := c.calls ++ effects.calls.map fun (peer, req) => { caller := id, callee := peer, request := req }
  replies := c.replies ++ newReplies served effects
  trace := { id, input, before := c.servers id, after, effects } :: c.trace

/-- Let one server take a step, if it can. -/
def advance (c : Cluster) (id : String) (input : Input) (served : Option ℕ) (fates : List Fate) :
    Option Cluster :=
  ((c.servers id).step c.calls.length fates input).map fun (after, effects) =>
    c.record id input served after effects

/-- One step of a cluster with the given members. -/
def step (members : List String) (c : Cluster) : Action → Option Cluster
  | .act id input fates =>
    if id ∈ members ∧ input.isLocal then c.advance id input none fates else none
  | .deliver handle fates => do
    let call ← c.calls[handle]?
    c.advance call.callee (.receive call.request) (some handle) fates
  | .answer handle reply fates => do
    let call ← c.calls[handle]?
    if (handle, reply) ∈ c.replies then c.advance call.caller (reply.input handle) none fates else none

/-- Every member has just been started over empty storage. -/
def first (members : List String) : Cluster where
  servers := fun id => Server.boot id members .empty
  calls := []
  replies := []
  trace := []

end Cluster

/-- The node ids of a cluster: distinct and not empty. -/
structure Membership where
  ids : List String
  nodup : ids.Nodup
  nonempty : "" ∉ ids

/-- One step of a cluster by an action that is allowed in the current state. -/
abbrev ClusterStep (m : Membership) (allowed : Cluster → Action → Prop) : Cluster → Cluster → Prop :=
  LabelledStep allowed fun c a => c.step m.ids a

/-- Execute several actions, as long as each is allowed and possible. -/
abbrev Cluster.run (m : Membership) (allowed : Cluster → Action → Prop) [∀ c a, Decidable (allowed c a)]
    (c : Cluster) : List Action → Option Cluster :=
  execute allowed (fun c a => c.step m.ids a) c

/-- The states that allowed runs of a cluster reach. -/
abbrev ClusterReachable (m : Membership) (allowed : Cluster → Action → Prop) : Cluster → Prop :=
  Reachable (· = Cluster.first m.ids) (ClusterStep m allowed)

/-- What executing actions from the first state computes is computed of a reachable state. -/
theorem exists_reachable_of_run {m : Membership} {allowed : Cluster → Action → Prop}
    [∀ c a, Decidable (allowed c a)] {actions : List Action} {A : Type} {f : Cluster → A} {a : A}
    (h : ((Cluster.first m.ids).run m allowed actions).map f = some a) :
    ∃ c, ClusterReachable m allowed c ∧ f c = a :=
  exists_reachable_of_execute rfl h

/-- A cluster of three. -/
def threeNodes : Membership where
  ids := ["a", "b", "c"]
  nodup := by decide
  nonempty := by decide

/-- The actions by which a node times out and wins the given term with the vote behind one call. -/
def electionOf (id : String) (handle : ℕ) (term : Int) : List Action :=
  [.act id .dispatch [], .act id .electionTimeout [], .act id .dispatch [], .act id .startElection [],
    .act id .openPoll [], .deliver handle [],
    .answer handle (.vote { term := term, voteGranted := true }) [], .act id .dispatch []]

/-- The actions by which a leader in the middle of a round sends its log to a peer that accepts it. -/
def replicationOf (id peer : String) (handle : ℕ) (term : Int) : List Action :=
  [.act id (.visit peer) [], .act id .appendTurn [], .deliver handle [],
    .answer handle (.append { term := term, success := true, conflictTerm := 0, conflictIndex := 0 }) [],
    .act id (.signal handle) [], .act id (.finish handle) []]

/-- The actions by which a waiting apply loop delivers one entry. -/
def applicationBy (id : String) : List Action :=
  [.act id .wakeApply [], .act id .drain [], .act id .pickEntry [], .act id .sendEntry []]

end ConsensusLab.Raft
