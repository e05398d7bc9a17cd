import ConsensusLab.Service.KV
import ConsensusLab.Raft.Steps

/-!
# A cluster of nodes with their services

Every process runs a node and its service over one disk. What the node delivers goes
into the service's channel, which may fill up as far as it likes: a channel of bounded
capacity only delays its sender. The service proposes commands and takes snapshots by
calling the node, and a process that is started again has a new service and a new store.
-/

namespace ConsensusLab.Raft

/-- The actions that only the service of a node asks for. -/
def Action.byService : Action → Bool
  | .act _ (.startCommand _) _ | .act _ (.takeSnapshot _ _) _ => true
  | _ => false

/-- The step ends with the process started again. -/
def Transition.restarts (tr : Transition) : Bool :=
  tr.input = .restart || tr.effects.lost.isSome

end ConsensusLab.Raft

namespace ConsensusLab.Service

open Foundation ConsensusLab.KV
open Raft (Action ApplyMsg Cluster Effects Membership Transition)

/-- What the processes of a cluster are started with. -/
structure Deployment where
  members : Membership
  codec : Codec
  snapshotEvery : String → ℕ

/-- The nodes and their network, the services, what each `applyCh` holds, and the calls that have returned
successfully, with the service that each was made to. -/
structure System where
  cluster : Cluster
  services : String → KV
  channels : String → List ApplyMsg
  acknowledged : List (String × Waiter)

/-- What happens next in a system. -/
inductive SystemAction
  /-- The nodes and the network act. -/
  | raft (action : Action)
  /-- A `Put` or `Delete` call proposes its command. -/
  | propose (id : String) (call : ℕ) (command : Command) (fates : List Fate)
  /-- The apply loop of a service receives a message. -/
  | receive (id : String)
  /-- The apply loop of a service calls `consensus.Snapshot`. -/
  | snapshot (id : String) (fates : List Fate)
  /-- A service takes a step of its own. -/
  | serve (id : String) (event : Event)
  deriving DecidableEq, Repr

/-- The events that concern nothing but the service. -/
def Event.isLocal : Event → Bool
  | notify | check _ | forget _ | wake _ | expire _ => true
  | apply _ | snapshotTaken _ | wait .. => false

namespace System

/-- Every process has just been started over empty storage. -/
def first (dep : Deployment) : System where
  cluster := .first dep.members.ids
  services id := newKV (dep.snapshotEvery id)
  channels _ := []
  acknowledged := []

/-- The nodes have come to a new state by the given step: what it delivers is in the channel of its
node, unless the process has been started again. -/
def follow (dep : Deployment) (sys : System) (c : Cluster) (tr : Transition) : System :=
  if tr.restarts then
    { sys with
      cluster := c
      services := Function.update sys.services tr.id (newKV (dep.snapshotEvery tr.id))
      channels := Function.update sys.channels tr.id [] }
  else
    { sys with
      cluster := c
      channels := Function.update sys.channels tr.id (sys.channels tr.id ++ tr.effects.delivered.toList) }

/-- Let the nodes take a step, if they can; the step is the latest on record. -/
def advance (dep : Deployment) (sys : System) (action : Action) : Option (System × Transition) := do
  let c ← sys.cluster.step dep.members.ids action
  let tr ← c.trace.head?
  some (sys.follow dep c tr, tr)

/-- Let a service take a step, if it can. -/
def serve (dep : Deployment) (sys : System) (id : String) (event : Event) : Option System :=
  ((sys.services id).step dep.codec event).map fun (s, returned) =>
    { sys with
      services := Function.update sys.services id s
      acknowledged := returned.toList.map (fun w => (id, w)) ++ sys.acknowledged }

/-- One step of a system. -/
def step (dep : Deployment) (sys : System) : SystemAction → Option System
  | .raft action => if action.byService then none else (sys.advance dep action).map Prod.fst
  | .propose id call command fates => do
    let (sys', tr) ← sys.advance dep (.act id (.startCommand (dep.codec.marshalCommand command)) fates)
    match tr.effects.accepted with
    | none => some sys'
    | some index => sys'.serve dep id (.wait call command index tr.before.node.currentTerm)
  | .receive id =>
    match sys.channels id with
    | [] => none
    | msg :: rest => { sys with channels := Function.update sys.channels id rest }.serve dep id (.apply msg)
  | .snapshot id fates =>
    match (sys.services id).handler with
    | .snapshotting => do
      let s := sys.services id
      let (sys', tr) ← sys.advance dep (.act id (.takeSnapshot s.lastAppliedIndex (s.store.snapshot dep.codec)) fates)
      if tr.restarts then some sys'
      else sys'.serve dep id (.snapshotTaken tr.effects.failed.isNone)
    | _ => none
  | .serve id event => if event.isLocal then sys.serve dep id event else none

/-- The steps of a system, with the steps of its nodes and services that each is made of. -/
inductive Turn (dep : Deployment) (sys : System) : SystemAction → System → Prop
  | raft {action : Action} {sys' : System} {tr : Transition} (hservice : action.byService = false)
      (hadvance : sys.advance dep action = some (sys', tr)) : Turn dep sys (.raft action) sys'
  | propose {id : String} {call : ℕ} {command : Command} {fates : List Fate} {sys₁ sys' : System}
      {tr : Transition}
      (hadvance : sys.advance dep (.act id (.startCommand (dep.codec.marshalCommand command)) fates) =
        some (sys₁, tr))
      (hwait : (tr.effects.accepted = none ∧ sys' = sys₁) ∨ ∃ index, tr.effects.accepted = some index ∧
        sys₁.serve dep id (.wait call command index tr.before.node.currentTerm) = some sys') :
      Turn dep sys (.propose id call command fates) sys'
  | receive {id : String} {msg : ApplyMsg} {rest : List ApplyMsg} {sys' : System}
      (hchannel : sys.channels id = msg :: rest)
      (hserve : { sys with channels := Function.update sys.channels id rest }.serve dep id (.apply msg) =
        some sys') : Turn dep sys (.receive id) sys'
  | snapshot {id : String} {fates : List Fate} {sys₁ sys' : System} {tr : Transition}
      (hhandler : (sys.services id).handler = .snapshotting)
      (hadvance : sys.advance dep (.act id (.takeSnapshot (sys.services id).lastAppliedIndex
        ((sys.services id).store.snapshot dep.codec)) fates) = some (sys₁, tr))
      (hreturn : (tr.restarts = true ∧ sys' = sys₁) ∨
        sys₁.serve dep id (.snapshotTaken tr.effects.failed.isNone) = some sys') :
      Turn dep sys (.snapshot id fates) sys'
  | serve {id : String} {event : Event} {sys' : System} (hlocal : event.isLocal = true)
      (hserve : sys.serve dep id event = some sys') : Turn dep sys (.serve id event) sys'

/-- The step function takes only these steps. -/
theorem Turn.of_step {dep : Deployment} {sys sys' : System} {act : SystemAction}
    (h : sys.step dep act = some sys') : Turn dep sys act sys' := by
  cases act with
  | raft action =>
    simp only [step] at h
    split at h
    · cases h
    · obtain ⟨⟨sys₁, tr⟩, hadvance, rfl⟩ := Option.map_eq_some_iff.mp h
      exact .raft (Bool.eq_false_iff.mpr ‹_›) hadvance
  | propose id call command fates =>
    obtain ⟨⟨sys₁, tr⟩, hadvance, hrest⟩ := Option.bind_eq_some_iff.mp h
    refine .propose hadvance ?_
    simp only at hrest
    split at hrest
    · cases hrest
      exact Or.inl ⟨‹_›, rfl⟩
    · exact Or.inr ⟨_, ‹_›, hrest⟩
  | receive id =>
    simp only [step] at h
    split at h
    · cases h
    · exact .receive ‹_› h
  | snapshot id fates =>
    simp only [step] at h
    split at h
    · obtain ⟨⟨sys₁, tr⟩, hadvance, hrest⟩ := Option.bind_eq_some_iff.mp h
      refine .snapshot ‹_› hadvance ?_
      simp only at hrest
      split at hrest
      · cases hrest
        exact Or.inl ⟨‹_›, rfl⟩
      · exact Or.inr hrest
    · cases h
  | serve id event =>
    simp only [step] at h
    split at h
    · exact .serve ‹_› h
    · cases h

/-- The nodes of a system do not move while a service does. -/
theorem serve_cluster {dep : Deployment} {sys sys' : System} {id : String} {event : Event}
    (h : sys.serve dep id event = some sys') : sys'.cluster = sys.cluster := by
  obtain ⟨_, _, rfl⟩ := Option.map_eq_some_iff.mp h
  rfl

/-- Following a step of a node, the nodes are in their new state. -/
@[simp] theorem follow_cluster (dep : Deployment) (sys : System) (c : Cluster) (tr : Transition) :
    (sys.follow dep c tr).cluster = c := by
  unfold follow
  split <;> rfl

/-- Following a step of a node, the services of the others stay as they are. -/
theorem follow_of_ne (dep : Deployment) (sys : System) (c : Cluster) (tr : Transition) {id : String}
    (hne : id ≠ tr.id) :
    (sys.follow dep c tr).services id = sys.services id ∧ (sys.follow dep c tr).channels id = sys.channels id := by
  unfold follow
  split
  · exact ⟨Function.update_of_ne hne .., Function.update_of_ne hne ..⟩
  · exact ⟨rfl, Function.update_of_ne hne ..⟩

/-- A step of the nodes is a step of one of them, on record. -/
theorem advance_cases {dep : Deployment} {sys sys' : System} {action : Action} {tr : Transition}
    (h : sys.advance dep action = some (sys', tr)) :
    ∃ input served, Cluster.Source dep.members.ids sys.cluster action tr.id input served ∧
      (sys.cluster.servers tr.id).Move sys.cluster.calls.length action.fates input (tr.after, tr.effects) ∧
      sys.cluster.step dep.members.ids action =
        some (sys.cluster.record tr.id input served tr.after tr.effects) ∧
      tr = { id := tr.id, input := input, before := sys.cluster.servers tr.id, after := tr.after,
             effects := tr.effects } ∧
      sys' = sys.follow dep (sys.cluster.record tr.id input served tr.after tr.effects) tr := by
  obtain ⟨c, hstep, hrest⟩ := Option.bind_eq_some_iff.mp h
  obtain ⟨id, input, served, after, effects, hsource, hmove, rfl⟩ := Cluster.step_cases hstep
  cases hrest
  exact ⟨input, served, hsource, hmove, hstep, rfl, rfl⟩

/-- A step of the nodes is a step of the cluster. -/
theorem advance_cluster {dep : Deployment} {sys sys' : System} {action : Action} {tr : Transition}
    (h : sys.advance dep action = some (sys', tr)) :
    sys.cluster.step dep.members.ids action = some sys'.cluster := by
  obtain ⟨_, _, _, _, hstep, _, rfl⟩ := advance_cases h
  rw [hstep, follow_cluster]

end System

/-- Storage faults of an action. -/
def SystemAction.fates : SystemAction → List Fate
  | raft action => action.fates
  | propose _ _ _ fates | snapshot _ fates => fates
  | receive _ | serve _ _ => []

/-- One step of a system by an action that is allowed in the current state. -/
abbrev SystemStep (dep : Deployment) (allowed : System → SystemAction → Prop) : System → System → Prop :=
  LabelledStep allowed (System.step dep)

/-- The states that allowed runs of a system reach. -/
abbrev SystemReachable (dep : Deployment) (allowed : System → SystemAction → Prop) : System → Prop :=
  Reachable (· = System.first dep) (SystemStep dep allowed)

/-- All storage calls succeed. -/
def StorageSucceeds (_ : System) (action : SystemAction) : Prop := action.fates = []

instance (sys : System) (action : SystemAction) : Decidable (StorageSucceeds sys action) :=
  inferInstanceAs (Decidable (_ = _))

/-- What executing actions from the first state computes is computed of a reachable state. -/
theorem exists_systemReachable_of_execute {dep : Deployment} {allowed : System → SystemAction → Prop}
    [∀ sys act, Decidable (allowed sys act)] {actions : List SystemAction} {A : Type} {f : System → A} {a : A}
    (h : (execute allowed (System.step dep) (System.first dep) actions).map f = some a) :
    ∃ sys, SystemReachable dep allowed sys ∧ f sys = a :=
  exists_reachable_of_execute rfl h

end ConsensusLab.Service
