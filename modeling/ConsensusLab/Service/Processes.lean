import ConsensusLab.Service.ApplyLoops

/-!
# One process of a system

A process is a node, its service and the channel between them. Whatever happens in a
system, a process takes one of five kinds of step, or none: its node does something, it is
started again, its service receives a message, which it can decode, its service does
something by itself, or its service has the node compact its log. What each of them keeps
holds of every process in every run.
-/

namespace ConsensusLab.Service

open Foundation ConsensusLab.KV
open Raft (Action ApplyMsg Cluster Effects Input Server Transition)

/-- A node, its service and what `applyCh` holds between them. -/
structure Process where
  server : Server
  service : KV
  channel : List ApplyMsg

/-- The process of a member. -/
def System.process (sys : System) (id : String) : Process where
  server := sys.cluster.servers id
  service := sys.services id
  channel := sys.channels id

/-- The events that are neither a message nor the return of `consensus.Snapshot`. -/
def Event.isOwn : Event → Bool
  | apply _ | snapshotTaken _ => false
  | notify | wait .. | check _ | forget _ | wake _ | expire _ => true

namespace Process

/-- One step of a process. -/
inductive Move (codec : Codec) (snapshotEvery : ℕ) (p : Process) : Process → Prop
  | node {fresh : ℕ} {fates : List Fate} {input : Input} {after : Server} {effects : Effects}
      (hmove : p.server.Move fresh fates input (after, effects)) (hinput : input ≠ .restart)
      (hkept : effects.lost = none) :
      Move codec snapshotEvery p { p with server := after, channel := p.channel ++ effects.delivered.toList }
  | restart {fresh : ℕ} {fates : List Fate} {input : Input} {after : Server} {effects : Effects}
      (hmove : p.server.Move fresh fates input (after, effects))
      (hover : input = .restart ∨ effects.lost ≠ none) :
      Move codec snapshotEvery p { server := after, service := newKV snapshotEvery, channel := [] }
  | receive {msg : ApplyMsg} {rest : List ApplyMsg} (hchannel : p.channel = msg :: rest)
      (hhandler : p.service.handler = .receiving) (hreadable : Readable codec msg) :
      Move codec snapshotEvery p { p with service := p.service.handleApply codec msg, channel := rest }
  | serve {event : Event} {s : KV} {returned : Option Waiter} (hown : event.isOwn = true)
      (hmove : KV.Move codec p.service event (s, returned)) : Move codec snapshotEvery p { p with service := s }
  | snapshot {fresh : ℕ} {fates : List Fate} {after : Server} {effects : Effects}
      (hhandler : p.service.handler = .snapshotting)
      (hmove : p.server.Move fresh fates
        (.takeSnapshot p.service.lastAppliedIndex (p.service.store.snapshot codec)) (after, effects))
      (hkept : effects.lost = none) :
      Move codec snapshotEvery p
        { server := after
          service := p.service.snapshotTaken effects.failed.isNone
          channel := p.channel ++ effects.delivered.toList }

/-- Some steps of a process, one after the other. -/
abbrev Moves (codec : Codec) (snapshotEvery : ℕ) : Process → Process → Prop :=
  Relation.ReflTransGen (Move codec snapshotEvery)

end Process

variable {dep : Deployment} {sys sys' : System} {action : Action} {tr : Transition} {id : String}

/-- A step ends with the process started again if it is a restart or the process is lost. -/
theorem restarts_iff : tr.restarts = true ↔ tr.input = .restart ∨ tr.effects.lost ≠ none := by
  simp [Transition.restarts, Option.isSome_iff_ne_none]

/-- A process to which nothing happens. -/
theorem System.process_follow_of_ne {c : Cluster} (hne : id ≠ tr.id)
    (hserver : c.servers id = sys.cluster.servers id) : (sys.follow dep c tr).process id = sys.process id := by
  obtain ⟨hservice, hchannel⟩ := sys.follow_of_ne dep c tr hne
  simp only [System.process, System.follow_cluster, hserver, hservice, hchannel]

/-- A process that is started again. -/
theorem System.process_follow_restarted (c : Cluster) (h : tr.restarts = true) :
    (sys.follow dep c tr).process tr.id =
      { server := c.servers tr.id, service := newKV (dep.snapshotEvery tr.id), channel := [] } := by
  simp only [System.process, System.follow, if_pos h, Function.update_self]

/-- A process whose node has taken a step. -/
theorem System.process_follow_kept (c : Cluster) (h : tr.restarts = false) :
    (sys.follow dep c tr).process tr.id =
      { server := c.servers tr.id
        service := sys.services tr.id
        channel := sys.channels tr.id ++ tr.effects.delivered.toList } := by
  simp only [System.process, System.follow, h, Bool.false_eq_true, if_false, Function.update_self]

/-- A step of the nodes is a step of the one process, or starts it again. -/
theorem System.process_advance (h : sys.advance dep action = some (sys', tr)) (id : String) :
    Process.Moves dep.codec (dep.snapshotEvery id) (sys.process id) (sys'.process id) := by
  obtain ⟨input, served, _, hmove, _, htr, rfl⟩ := System.advance_cases h
  have hinput : tr.input = input := by rw [htr]
  by_cases hid : id = tr.id
  · subst hid
    refine .single ?_
    cases hrestarts : tr.restarts with
    | true =>
      rw [System.process_follow_restarted _ hrestarts, Cluster.record_servers_self]
      exact .restart hmove (hinput ▸ restarts_iff.mp hrestarts)
    | false =>
      obtain ⟨hkept, hheld⟩ := not_or.mp (mt restarts_iff.mpr (Bool.eq_false_iff.mp hrestarts))
      rw [System.process_follow_kept _ hrestarts, Cluster.record_servers_self]
      exact .node (p := sys.process tr.id) hmove (hinput ▸ hkept) (Classical.not_not.mp hheld)
  · rw [System.process_follow_of_ne hid (Cluster.record_servers_of_ne _ _ _ _ _ hid)]

/-- A step of a service, given the step of its process that it is. -/
theorem System.process_serve {event : Event} {sys₀ : System} (h : sys₀.serve dep id event = some sys') (other : String)
    (hstill : other ≠ id → sys₀.process other = sys.process other)
    (hserved : ∀ s returned, KV.Move dep.codec (sys₀.services id) event (s, returned) →
      Process.Moves dep.codec (dep.snapshotEvery id) (sys.process id) { sys₀.process id with service := s }) :
    Process.Moves dep.codec (dep.snapshotEvery other) (sys.process other) (sys'.process other) := by
  obtain ⟨⟨s, returned⟩, hstep, rfl⟩ := Option.map_eq_some_iff.mp h
  by_cases hother : other = id
  · subst hother
    simp only [System.process, Function.update_self]
    exact hserved s returned (.of_step hstep)
  · have hsame := hstill hother
    simp only [System.process] at hsame ⊢
    rw [Function.update_of_ne hother, hsame]

/-- Events that concern nothing but the service are its own. -/
theorem Event.isOwn_of_isLocal {event : Event} (h : event.isLocal = true) : event.isOwn = true := by
  cases event with
  | apply | snapshotTaken | wait => cases h
  | notify | check | forget | wake | expire => rfl

/-- An event of its own is a step of the process. -/
theorem System.process_serve_own {event : Event} (h : sys.serve dep id event = some sys')
    (hown : event.isOwn = true) (other : String) :
    Process.Moves dep.codec (dep.snapshotEvery other) (sys.process other) (sys'.process other) :=
  System.process_serve h other (fun _ => rfl) fun _ _ hmove =>
    .single (.serve (p := sys.process id) hown hmove)

/-- A service has its node compact its log and goes on with what the call has returned. -/
theorem System.process_snapshot {fates : List Fate} {sys₁ : System} (hhandler : (sys.services id).handler = .snapshotting)
    (hadvance : sys.advance dep (.act id (.takeSnapshot (sys.services id).lastAppliedIndex
      ((sys.services id).store.snapshot dep.codec)) fates) = some (sys₁, tr))
    (hserve : sys₁.serve dep id (.snapshotTaken tr.effects.failed.isNone) = some sys') (other : String) :
    Process.Moves dep.codec (dep.snapshotEvery other) (sys.process other) (sys'.process other) := by
  obtain ⟨input, served, hsource, hmove, _, htr, rfl⟩ := System.advance_cases hadvance
  cases hsource with
  | act =>
    have hinput : tr.input ≠ .restart := by
      rw [htr]
      exact fun h => by cases h
    refine System.process_serve hserve other (fun hne => ?_) fun s returned hreturn => ?_
    · exact System.process_follow_of_ne hne (Cluster.record_servers_of_ne _ _ _ _ _ hne)
    · cases hreturn with
      | snapshotTaken ok hsnapshotting =>
        -- a process that was started again is not in `snapshot` any more
        have hkept : tr.restarts = false := by
          by_contra hrestarts
          rw [System.follow, if_pos (by simpa using hrestarts)] at hsnapshotting
          simp only [Function.update_self] at hsnapshotting
          cases hsnapshotting
        have hlost : tr.effects.lost = none := by
          simpa [Transition.restarts, hinput] using hkept
        rw [System.process_follow_kept _ hkept, Cluster.record_servers_self]
        simp only [System.follow, hkept, Bool.false_eq_true, if_false]
        exact .single (.snapshot (p := sys.process tr.id) hhandler hmove hlost)

/-- **What a process does.** Whatever happens in a system, each process takes steps of these kinds. -/
theorem System.Turn.process {act : SystemAction} (hturn : System.Turn dep sys act sys') (hlegible : sys.Legible dep)
    (other : String) :
    Process.Moves dep.codec (dep.snapshotEvery other) (sys.process other) (sys'.process other) := by
  cases hturn with
  | raft _ hadvance => exact System.process_advance hadvance other
  | propose hadvance hwait =>
    have hproposed := System.process_advance hadvance other
    rcases hwait with ⟨_, rfl⟩ | ⟨_, _, hserve⟩
    · exact hproposed
    · exact hproposed.trans (System.process_serve_own hserve rfl other)
  | @receive id msg rest _ hchannel hserve =>
    refine System.process_serve hserve other (fun hne => ?_) fun s returned hmove => ?_
    · simp only [System.process, Function.update_of_ne hne]
    · simp only [System.process, Function.update_self]
      cases hmove with
      | apply _ hhandler =>
        have hreadable := hlegible.channels id msg (by rw [hchannel]; exact List.mem_cons_self)
        exact .single (.receive (p := sys.process id) hchannel hhandler hreadable)
  | @snapshot id fates sys₁ _ tr hhandler hadvance hreturn =>
    rcases hreturn with ⟨_, rfl⟩ | hserve
    · exact System.process_advance hadvance other
    · exact System.process_snapshot hhandler hadvance hserve other
  | serve hlocal hserve => exact System.process_serve_own hserve (Event.isOwn_of_isLocal hlocal) other

/-- What holds of a new process and is kept by its steps holds of every process of every run. -/
theorem SystemReachable.process {allowed : System → SystemAction → Prop} (run : SystemReachable dep allowed sys)
    {P : Process → Prop} (id : String)
    (hfirst : P { server := .boot id dep.members.ids .empty, service := newKV (dep.snapshotEvery id), channel := [] })
    (hmove : ∀ p p', P p → Process.Move dep.codec (dep.snapshotEvery id) p p' → P p') : P (sys.process id) := by
  refine run.invariant (P := fun sys => P (sys.process id)) ?_ ?_
  · rintro sys rfl
    exact hfirst
  · rintro sys sys' run h ⟨act, _, hstep⟩
    have hmoves : ∀ {p}, Process.Moves dep.codec (dep.snapshotEvery id) (sys.process id) p → P p := by
      intro p hpath
      induction hpath with
      | refl => exact h
      | tail _ hnext ih => exact hmove _ _ ih hnext
    exact hmoves ((System.Turn.of_step hstep).process (System.legible_of_reachable run) id)

end ConsensusLab.Service
