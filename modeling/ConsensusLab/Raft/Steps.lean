import ConsensusLab.Raft.Cluster

/-!
# What a step can do

The step functions turned into relations, once and for all: every later proof about
steps is a case analysis over `Server.Move` and `Cluster.Source` and never looks at the
functions again. A section is judged by what it ensures.
-/

namespace ConsensusLab.Raft

open Foundation

/-- The steps of a server, with the place in the process that each of them needs. -/
inductive Server.Move (sv : Server) (fresh : ℕ) (fates : List Fate) : Input → Server × Effects → Prop
  | restart : Move sv fresh fates .restart (sv.reboot sv.disk, {})
  | dispatch (hmain : sv.main = .idle) :
      Move sv fresh fates .dispatch (Server.onDisk sv.disk (sv.dispatch, {}))
  | electionReset (hmain : sv.main = .following) :
      Move sv fresh fates .electionReset
        ({ sv with node := { sv.node with electionTimeoutReset := false } }, {})
  | electionTimeout (hmain : sv.main = .following) :
      Move sv fresh fates .electionTimeout
        ({ sv with node := sv.node.convertToCandidate, main := .idle }, {})
  | startElection (hmain : sv.main = .starting) :
      Move sv fresh fates .startElection (sv.carryOut fates sv.planStartElection)
  | openPoll {req : RequestVoteRequest} (hmain : sv.main = .opening req) :
      Move sv fresh fates .openPoll (Server.onDisk sv.disk (sv.stepOpenPoll fresh req))
  | voteAnswered {poll : Poll} {handle : ℕ} {resp : RequestVoteResponse}
      (hmain : sv.main = .polling poll) (hawaited : handle ∈ poll.awaiting) :
      Move sv fresh fates (.voteAnswered handle resp) (sv.carryOut fates (sv.planVoteAnswered poll handle resp))
  | pollTimeout {poll : Poll} (hmain : sv.main = .polling poll) :
      Move sv fresh fates .pollTimeout ({ sv with main := .idle }, {})
  | startRoundNotified (hmain : sv.main = .leading []) :
      Move sv fresh fates (.startRound true)
        ({ sv with node := { sv.node with replicateNotify := false }, main := .leading sv.node.peers }, {})
  | startRound (hmain : sv.main = .leading []) :
      Move sv fresh fates (.startRound false) ({ sv with main := .leading sv.node.peers }, {})
  | visit {peer : String} {todo : List String} (hmain : sv.main = .leading todo) (hpeer : peer ∈ todo) :
      Move sv fresh fates (.visit peer) (sv.carryOut fates (sv.planVisit fresh peer todo))
  | appendTurn {peer : String} {todo : List String} (hmain : sv.main = .appending peer todo) :
      Move sv fresh fates .appendTurn (sv.carryOut fates (sv.planAppendTurn fresh peer todo))
  | appendAnswered {send : Send} {req : AppendEntriesRequest} {resp : AppendEntriesResponse}
      (hsend : send ∈ sv.sends) (hphase : send.phase = .waitingAppend req) :
      Move sv fresh fates (.appendAnswered send.handle resp) (sv.carryOut fates (sv.planAppendAnswered send req resp))
  | installAnswered {send : Send} {req : InstallSnapshotRequest} {resp : InstallSnapshotResponse}
      (hsend : send ∈ sv.sends) (hphase : send.phase = .waitingInstall req) :
      Move sv fresh fates (.installAnswered send.handle resp) (sv.carryOut fates (sv.planInstallAnswered send req resp))
  | callFailed (handle : ℕ) :
      Move sv fresh fates (.callFailed handle)
        ({ sv with sends := NodeProcess.setPhase sv.sends handle .finishing }, {})
  | signal {send : Send} {signals : Node.Signals} (hsend : send ∈ sv.sends)
      (hphase : send.phase = .signalling signals) :
      Move sv fresh fates (.signal send.handle) (Server.onDisk sv.disk (sv.stepSignal send signals))
  | finish {send : Send} (hsend : send ∈ sv.sends) (hphase : send.phase = .finishing) :
      Move sv fresh fates (.finish send.handle) (Server.onDisk sv.disk (sv.stepFinish send))
  | notify {rest : ℕ} (hnotifying : sv.notifying = rest + 1) :
      Move sv fresh fates .notify ({ sv with node := sv.node.signalReplicate, notifying := rest }, {})
  | receive (req : Request) : Move sv fresh fates (.receive req) (sv.carryOut fates (sv.planReceive req))
  | startCommand (cmd : Bytes) :
      Move sv fresh fates (.startCommand cmd) (sv.carryOut fates (sv.planStartCommand cmd))
  | takeSnapshot (index : Int) (data : Bytes) :
      Move sv fresh fates (.takeSnapshot index data) (sv.carryOut fates (sv.planTakeSnapshot index data))
  | wakeApply (happlier : sv.applier = .parked) (htoken : sv.node.applyNotify = true) :
      Move sv fresh fates .wakeApply
        ({ sv with node := { sv.node with applyNotify := false }, applier := .draining }, {})
  | drain (happlier : sv.applier = .draining) :
      Move sv fresh fates .drain (Server.onDisk sv.disk sv.stepDrain)
  | sendSnapshot {snap : Snapshot} (happlier : sv.applier = .sendingSnapshot snap) :
      Move sv fresh fates .sendSnapshot ({ sv with applier := .sentSnapshot snap },
        { delivered := some (.snapshot snap.data snap.lastIncludedIndex) })
  | recordSnapshot {snap : Snapshot} (happlier : sv.applier = .sentSnapshot snap) :
      Move sv fresh fates .recordSnapshot
        ({ sv with node := sv.node.snapshotApplied snap, applier := .draining }, {})
  | pickEntry (happlier : sv.applier = .applying) :
      Move sv fresh fates .pickEntry (sv.carryOut fates sv.planPickEntry)
  | sendEntry {entry : LogEntry} {index : Int} (happlier : sv.applier = .sendingEntry entry index) :
      Move sv fresh fates .sendEntry ({ sv with applier := .applying },
        { delivered := some (.command entry.command index) })

/-- A goroutine found by its handle is there and has that handle. -/
theorem NodeProcess.findSend_some {p : NodeProcess} {handle : ℕ} {send : Send}
    (h : p.findSend handle = some send) : send ∈ p.sends ∧ send.handle = handle :=
  ⟨List.mem_of_find?_eq_some h, by simpa using List.find?_some h⟩

/-- A step other than a restart carries out a plan. -/
theorem Server.exists_plan_of_step {sv : Server} {fresh : ℕ} {fates : List Fate} {input : Input}
    {result : Server × Effects} (h : sv.step fresh fates input = some result) (hinput : input ≠ .restart) :
    ∃ plan, sv.plan fresh input = some plan ∧ sv.carryOut fates plan = result := by
  cases input with
  | restart => exact absurd rfl hinput
  | _ => exact Option.map_eq_some_iff.mp h

/-- A step that runs a critical section performs the calls of the section. -/
theorem Server.performed_of_plan {sv : Server} {fresh : ℕ} {fates : List Fate} {input : Input} {A : Type}
    {program : Section A} {next : A → NodeProcess × Effects}
    (h : sv.plan fresh input = some (.critical program next)) :
    sv.performed fresh fates input = program.performed fates := by
  simp only [Server.performed, h]

/-- The inputs on which a process runs a critical section that can call storage. -/
def Input.critical : Input → Bool
  | startElection | voteAnswered _ _ | visit _ | appendTurn | appendAnswered _ _ | installAnswered _ _ | receive _
  | startCommand _ | takeSnapshot _ _ | pickEntry => true
  | _ => false

/-- On other inputs nothing is stored. -/
theorem Server.performed_of_not_critical {sv : Server} {fresh : ℕ} {fates : List Fate} {input : Input}
    (h : input.critical = false) : sv.performed fresh fates input = [] := by
  unfold Server.performed
  split
  · rename_i hplan
    cases input with
    | startElection | voteAnswered | visit | appendTurn | appendAnswered | installAnswered | receive | startCommand
    | takeSnapshot | pickEntry => cases h
    | _ =>
      simp only [NodeProcess.plan] at hplan
      (repeat' split at hplan) <;> cases hplan
  · rfl

/-- The step function takes only these steps. -/
theorem Server.Move.of_step {sv : Server} {fresh : ℕ} {fates : List Fate} {input : Input}
    {result : Server × Effects} (hstep : sv.step fresh fates input = some result) :
    sv.Move fresh fates input result := by
  by_cases hinput : input = .restart
  · subst hinput
    cases hstep
    exact .restart
  obtain ⟨plan, h, rfl⟩ := Server.exists_plan_of_step hstep hinput
  clear hstep
  cases input with
  | restart => exact absurd rfl hinput
  | receive | startCommand | takeSnapshot =>
    cases h
    constructor
  | dispatch | electionTimeout | startElection | openPoll | pollTimeout | appendTurn | notify | drain | sendSnapshot
  | recordSnapshot | pickEntry | sendEntry =>
    simp only [NodeProcess.plan] at h
    split at h
    · cases h
      constructor
      assumption
    · cases h
  | electionReset | wakeApply | voteAnswered | visit =>
    simp only [NodeProcess.plan] at h
    split at h
    · split at h
      · cases h
        constructor <;> assumption
      · cases h
    · cases h
  | startRound notified =>
    simp only [NodeProcess.plan] at h
    split at h
    · cases notified with
      | true =>
        rw [if_pos rfl] at h
        split at h
        · cases h
          exact .startRoundNotified ‹_›
        · cases h
      | false =>
        cases h
        exact .startRound ‹_›
    · cases h
  | appendAnswered handle resp | installAnswered handle resp | signal handle | finish handle =>
    simp only [NodeProcess.plan] at h
    split at h
    · obtain ⟨hmem, rfl⟩ := NodeProcess.findSend_some ‹_›
      split at h
      · cases h
        constructor <;> assumption
      · cases h
    · cases h
  | callFailed handle =>
    simp only [NodeProcess.plan] at h
    split at h
    · split at h
      · cases h
        constructor
      · cases h
        constructor
      · cases h
    · cases h

/-- A property of everything a performed section can lead to: the continuation from its results, and
the restarted process where it is lost. -/
theorem Server.perform_rule {A : Type} {sv : Server} {fates : List Fate} {p : Section A}
    {next : A → PersistentState → Server × Effects} {P : Server × Effects → Prop} {faults : Prop}
    {lost : PersistentState → Prop} {post : A → PersistentState → Prop}
    (hp : p.Ensures faults lost post sv.disk) (hfates : faults ∨ fates = [])
    (hpost : ∀ a disk, post a disk → P (next a disk))
    (hlost : ∀ b disk, lost disk → P (sv.reboot disk, { lost := some b })) :
    P (sv.perform fates p next) := by
  have hjudged : StorageProgram.Judged lost post (p.run fates sv.disk) := hp.exec fates hfates
  unfold Server.perform
  generalize p.run fates sv.disk = outcome at hjudged ⊢
  rcases outcome with ⟨a | _ | _, disk⟩
  · exact hpost a disk hjudged
  · exact hlost true disk hjudged
  · exact hlost false disk hjudged

/-- The same where no storage call fails: the section ends as it does without faults, or crashes. -/
theorem Server.perform_rule_of_not_fails {A : Type} {sv : Server} {fates : List Fate} {p : Section A}
    {next : A → PersistentState → Server × Effects} {P : Server × Effects → Prop}
    {post : A → PersistentState → Prop} (hp : p.Ensures False (fun _ => True) post sv.disk)
    (hfates : .fails ∉ fates) (hpost : ∀ a disk, post a disk → P (next a disk))
    (hlost : ∀ b disk, P (sv.reboot disk, { lost := some b })) : P (sv.perform fates p next) := by
  have hjudged : StorageProgram.Judged (fun _ => True) post (p.run [] sv.disk) := hp.exec [] (Or.inr rfl)
  have hends : p.run fates sv.disk = p.run [] sv.disk ∨ (p.run fates sv.disk).1 = .crashed :=
    p.exec_of_not_fails hfates sv.disk
  unfold Server.perform
  rcases hends with hsame | hcrash
  · rw [hsame]
    generalize p.run [] sv.disk = outcome at hjudged ⊢
    rcases outcome with ⟨a | _ | _, disk⟩
    · exact hpost a disk hjudged
    · exact hlost true disk
    · exact hlost false disk
  · generalize p.run fates sv.disk = outcome at hcrash ⊢
    obtain ⟨_, disk⟩ := outcome
    cases hcrash
    exact hlost false disk

/-- Storage faults of an action. -/
def Action.fates : Action → List Fate
  | act _ _ fates | deliver _ fates | answer _ _ fates => fates

/-- Which server an action moves, with which input, and which call it serves. -/
inductive Cluster.Source (members : List String) (c : Cluster) :
    Action → String → Input → Option ℕ → Prop
  | act {id : String} {input : Input} {fates : List Fate} (hid : id ∈ members)
      (hlocal : input.isLocal = true) : Source members c (.act id input fates) id input none
  | deliver {handle : ℕ} {call : Call} {fates : List Fate} (hcall : c.calls[handle]? = some call) :
      Source members c (.deliver handle fates) call.callee (.receive call.request) (some handle)
  | answer {handle : ℕ} {call : Call} {reply : Reply} {fates : List Fate}
      (hcall : c.calls[handle]? = some call) (hreply : (handle, reply) ∈ c.replies) :
      Source members c (.answer handle reply fates) call.caller (reply.input handle) none

/-- A step of the cluster is a step of one server, recorded. -/
theorem Cluster.exists_server_step {members : List String} {c c' : Cluster} {a : Action}
    (h : c.step members a = some c') :
    ∃ id input served after effects, Source members c a id input served ∧
      (c.servers id).step c.calls.length a.fates input = some (after, effects) ∧
      c' = c.record id input served after effects := by
  have hadvance : ∀ {id input served fates}, c.advance id input served fates = some c' →
      ∃ after effects, (c.servers id).step c.calls.length fates input = some (after, effects) ∧
        c' = c.record id input served after effects := by
    intro id input served fates hadv
    obtain ⟨⟨after, effects⟩, hstep, hrec⟩ := Option.map_eq_some_iff.mp hadv
    exact ⟨after, effects, hstep, hrec.symm⟩
  cases a with
  | act id input fates =>
    simp only [Cluster.step] at h
    split at h
    · obtain ⟨after, effects, hstep, hrec⟩ := hadvance h
      exact ⟨id, input, none, after, effects, .act (And.left ‹_›) (And.right ‹_›), hstep, hrec⟩
    · cases h
  | deliver handle fates =>
    obtain ⟨call, hcall, hadv⟩ := Option.bind_eq_some_iff.mp h
    obtain ⟨after, effects, hstep, hrec⟩ := hadvance hadv
    exact ⟨_, _, _, after, effects, .deliver hcall, hstep, hrec⟩
  | answer handle reply fates =>
    obtain ⟨call, hcall, hrest⟩ := Option.bind_eq_some_iff.mp h
    split at hrest
    · obtain ⟨after, effects, hstep, hrec⟩ := hadvance hrest
      exact ⟨_, _, _, after, effects, .answer hcall ‹_›, hstep, hrec⟩
    · cases hrest

/-- The same, with the server's step as one of its moves. -/
theorem Cluster.step_cases {members : List String} {c c' : Cluster} {a : Action}
    (h : c.step members a = some c') :
    ∃ id input served after effects, Source members c a id input served ∧
      (c.servers id).Move c.calls.length a.fates input (after, effects) ∧
      c' = c.record id input served after effects := by
  obtain ⟨id, input, served, after, effects, hsource, hstep, hrec⟩ := exists_server_step h
  exact ⟨id, input, served, after, effects, hsource, .of_step hstep, hrec⟩

/-- The server that moved. -/
@[simp] theorem Cluster.record_servers_self (c : Cluster) (id : String) (input : Input)
    (served : Option ℕ) (after : Server) (effects : Effects) :
    (c.record id input served after effects).servers id = after := Function.update_self ..

/-- The servers that did not move. -/
theorem Cluster.record_servers_of_ne (c : Cluster) {id other : String} (input : Input)
    (served : Option ℕ) (after : Server) (effects : Effects) (h : other ≠ id) :
    (c.record id input served after effects).servers other = c.servers other :=
  Function.update_of_ne h ..

/-- A response on record after a step was there before or answers the call that the step served. -/
theorem Cluster.mem_record_replies {c : Cluster} {id : String} {input : Input} {served : Option ℕ}
    {after : Server} {effects : Effects} {handle : ℕ} {reply : Reply}
    (h : (handle, reply) ∈ (c.record id input served after effects).replies) :
    (handle, reply) ∈ c.replies ∨ (served = some handle ∧ effects.reply = some reply) := by
  rcases List.mem_append.mp h with hold | hnew
  · exact Or.inl hold
  · unfold Cluster.newReplies at hnew
    split at hnew
    · cases List.mem_singleton.mp hnew
      exact Or.inr ⟨rfl, ‹_›⟩
    · cases hnew

/-- A response that a goroutine reads is on record. -/
theorem Cluster.Source.answered {members : List String} {c : Cluster} {a : Action} {id : String}
    {input : Input} {served : Option ℕ} (h : Source members c a id input served) {handle : ℕ} {reply : Reply}
    (hinput : input = reply.input handle) : (handle, reply) ∈ c.replies := by
  cases h with
  | act hid hlocal =>
    subst hinput
    cases reply <;> cases hlocal
  | deliver => cases reply <;> cases hinput
  | @answer _ _ reply' _ _ hreply =>
    cases reply <;> cases reply' <;> cases hinput
    all_goals exact hreply

/-- A step that serves a call is a step of its callee on its request. -/
theorem Cluster.Source.serves {members : List String} {c : Cluster} {a : Action} {id : String}
    {input : Input} {handle : ℕ} (h : Source members c a id input (some handle)) :
    ∃ call, c.calls[handle]? = some call ∧ id = call.callee ∧ input = .receive call.request := by
  cases h with
  | deliver hcall => exact ⟨_, hcall, rfl, rfl⟩

end ConsensusLab.Raft
