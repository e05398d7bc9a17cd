import ConsensusLab.Foundation.Histories
import ConsensusLab.Service.Acknowledgements
import ConsensusLab.Service.ApplyLoops

/-!
# What clients read

`Get` reads the store of whichever process it reaches, under the mutex of that store and
without asking the other nodes. What clients of different processes read need not be in
the order of their calls, then. Still all reads are explained by one sequence of commands:
each of them finds what the last write among the first so many committed commands says.
And a process never goes back before it is started again: it reads from no shorter part of
the log than it has read from before or than a call has returned the index of, and a
command that it proposes comes behind that part. Whether the command at the index that a
call has returned is the one that the call has proposed is another question.

A message is handled in one step here. The code changes the store before it changes
`lastAppliedIndex`, in sections of two mutexes; reads do not look at the index, and the
calls that wait do not look at the store.
-/

namespace ConsensusLab.KV

open Raft (Bytes)

/-- What the last of these commands to write a key says about it. -/
def lastWrite (commands : List Command) (key : String) : Option String :=
  (commands.reverse.findSome? (Command.writes · key)).getD none

variable {codec : Codec}

/-- One more command. -/
theorem lastWrite_concat (commands : List Command) (cmd : Command) (key : String) :
    lastWrite (commands ++ [cmd]) key = (cmd.writes key).getD (lastWrite commands key) := by
  simp only [lastWrite, List.reverse_append, List.reverse_singleton, List.singleton_append, List.findSome?_cons]
  cases cmd.writes key <;> rfl

/-- A store that replays commands has what the last writes among them say. -/
theorem get_of_replay {raw : List Bytes} {store : Store} (h : replay codec raw = some store) :
    ∃ commands, raw.mapM codec.unmarshalCommand = some commands ∧ ∀ key, store.get key = lastWrite commands key := by
  induction raw using List.reverseRecOn generalizing store with
  | nil =>
    cases h
    exact ⟨[], rfl, fun key => rfl⟩
  | append_singleton raw last ih =>
    rw [replay_concat] at h
    obtain ⟨before, hbefore, happly⟩ := Option.bind_eq_some_iff.mp h
    obtain ⟨cmd, hcmd, rfl⟩ := Option.map_eq_some_iff.mp happly
    obtain ⟨commands, hcommands, hget⟩ := ih hbefore
    refine ⟨commands ++ [cmd], ?_, fun key => ?_⟩
    · simp [List.mapM_append, hcommands, hcmd]
    · rw [get_perform, lastWrite_concat, hget]

end ConsensusLab.KV

namespace ConsensusLab.Raft

open Foundation

/-- `StartCommand` appends behind the end of the log. -/
theorem Server.Move.accepted_index {sv : Server} {fresh : ℕ} {result : Server × Effects} {cmd : Bytes} {index : Int}
    (hmove : sv.Move fresh [] (.startCommand cmd) result) (haccepted : result.2.accepted = some index) :
    index = sv.node.lastLogIndex + 1 := by
  have hstarted : (sv.node.startCommand cmd).Ensures False (fun _ => True) (fun r _ => ∀ index,
      r.2 = some index → index = sv.node.lastLogIndex + 1) sv.disk := by
    refine Node.startCommand_rule (fun _ _ h => by cases h) (fun _ _ h => h.elim) fun _ _ =>
      Node.advanceCommitIndex_rule (fun _ => trivial) (fun index hindex => ?_)
        fun i hi => ⟨False.elim, fun index hindex => ?_⟩
    all_goals
      cases hindex
      rfl
  cases hmove
  revert haccepted
  exact Server.perform_rule (P := fun result => result.2.accepted = some index → index = sv.node.lastLogIndex + 1)
    hstarted (Or.inr rfl) (fun r disk h => h index) fun _ _ _ h => by cases h

end ConsensusLab.Raft

namespace ConsensusLab.Service

open Foundation ConsensusLab.KV
open Raft (Action ApplyMsg Cluster Effects Input LogEntry RaftLog Server Transition)

/-- What clients see of a system, with the process that shows it. -/
inductive Observation
  /-- The process has been started again. -/
  | started (id : String)
  /-- `Get` has returned, when so much was applied. -/
  | read (id key : String) (value : Option String) (applied : Int)
  /-- `Put` or `Delete` has returned successfully. -/
  | written (id : String) (command : Command) (index : Int)
  /-- `StartCommand` has accepted a command. -/
  | proposed (id : String) (index : Int)
  deriving DecidableEq, Repr

/-- What happens next: something in the system, or a client reads. -/
inductive ClientAction
  | act (action : SystemAction)
  | get (id key : String)
  deriving DecidableEq, Repr

/-- What a step of a node shows. -/
def shownBy (tr : Transition) : List Observation :=
  if tr.restarts then [.started tr.id]
  else
    match tr.input with
    | .startCommand _ => tr.effects.accepted.toList.map (.proposed tr.id)
    | _ => []

/-- What a step adds to the records: calls that have returned, and steps of nodes. -/
def System.shows (sys sys' : System) : List Observation :=
  (sys'.acknowledged.take (sys'.acknowledged.length - sys.acknowledged.length)).map
      (fun (id, w) => .written id w.command w.index) ++
    (sys'.cluster.trace.take (sys'.cluster.trace.length - sys.cluster.trace.length)).flatMap shownBy

/-- A step with what clients see of it. -/
def System.observe (dep : Deployment) (sys : System) : ClientAction → Option (System × List Observation)
  | .act action => (sys.step dep action).map fun sys' => (sys', sys.shows sys')
  | .get id key =>
    if id ∈ dep.members.ids then
      let s := sys.services id
      some (sys, [.read id key (s.store.get key) s.lastAppliedIndex])
    else none

/-- All storage calls succeed. -/
def ReadsAllowed (sys : System) : ClientAction → Prop
  | .act action => StorageSucceeds sys action
  | .get _ _ => True

instance (sys : System) (action : ClientAction) : Decidable (ReadsAllowed sys action) := by
  unfold ReadsAllowed
  split <;> infer_instance

/-- How far into the log a process has shown its clients since it was last started, from what they have seen, latest
first: by the reads and by the indices that its calls have returned. -/
def shownTo (id : String) : List Observation → Int
  | [] => 0
  | .started v :: past => if v = id then 0 else shownTo id past
  | .read v _ _ index :: past | .written v _ index :: past =>
    if v = id then max index (shownTo id past) else shownTo id past
  | .proposed _ _ :: past => shownTo id past

/-- Processes do not go back in the log: reads are from no shorter part of it than what their process has shown
before, and commands are proposed behind it. -/
def Sessions : List Observation → Prop
  | [] => True
  | .read v _ _ index :: past => shownTo v past ≤ index ∧ Sessions past
  | .proposed v index :: past => shownTo v past < index ∧ Sessions past
  | .started _ :: past | .written _ _ _ :: past => Sessions past

/-- The read finds what the last write among the first commands of the log says. -/
def Explains (codec : Codec) (committed : List LogEntry) (key : String) (value : Option String) (index : Int) : Prop :=
  0 ≤ index ∧ index ≤ committed.length ∧
    ∃ commands, (committed.take index.toNat).mapM (fun e => codec.unmarshalCommand e.command) = some commands ∧
      value = lastWrite commands key

variable {dep : Deployment} {sys sys' : System} {a : RaftLog} {id : String} {past : List Observation} {tr : Transition}
  {action : Action}

/-- How far the store of a process has come. -/
def System.applied (sys : System) (id : String) : Int := (sys.services id).lastAppliedIndex

/-- What a step may show, with what it does to the stores. -/
inductive System.Shown (dep : Deployment) (sys sys' : System) : List Observation → Prop
  | nothing (hkept : ∀ id ∈ dep.members.ids, sys.applied id ≤ sys'.applied id) : Shown dep sys sys' []
  | started {v : String} (hstart : 0 ≤ sys'.applied v)
      (hkept : ∀ id ∈ dep.members.ids, id ≠ v → sys.applied id ≤ sys'.applied id) : Shown dep sys sys' [.started v]
  | written {v : String} {command : Command} {index : Int} (hindex : index ≤ sys'.applied v)
      (hkept : ∀ id ∈ dep.members.ids, sys.applied id ≤ sys'.applied id) :
      Shown dep sys sys' [.written v command index]
  | proposed {v : String} {index : Int} (hid : v ∈ dep.members.ids) (hindex : sys.applied v < index)
      (hkept : ∀ id ∈ dep.members.ids, sys.applied id ≤ sys'.applied id) : Shown dep sys sys' [.proposed v index]

/-- A step that adds a node's step to the records shows that. -/
theorem System.shows_of_trace (htrace : sys'.cluster.trace = tr :: sys.cluster.trace)
    (hacknowledged : sys'.acknowledged = sys.acknowledged) : sys.shows sys' = shownBy tr := by
  simp [System.shows, htrace, hacknowledged]

/-- A step of a service shows the call that it makes return. -/
theorem System.shows_of_acknowledged {returned : List (String × Waiter)} (hcluster : sys'.cluster = sys.cluster)
    (hacknowledged : sys'.acknowledged = returned ++ sys.acknowledged) :
    sys.shows sys' = returned.map fun (id, w) => .written id w.command w.index := by
  simp [System.shows, hcluster, hacknowledged]

/-- A step of the nodes is recorded, and leaves the stores alone unless it starts the process again. -/
theorem System.advance_shows (h : sys.advance dep action = some (sys', tr)) :
    sys'.cluster.trace = tr :: sys.cluster.trace ∧
      (∀ id, id ≠ tr.id ∨ tr.restarts = false → sys'.applied id = sys.applied id) ∧
      (tr.restarts = true → sys'.applied tr.id = 0) := by
  obtain ⟨input, served, _, _, _, htr, rfl⟩ := System.advance_cases h
  refine ⟨?_, fun id hid => ?_, fun hrestarts => ?_⟩
  · rw [System.follow_cluster]
    exact congrArg (· :: sys.cluster.trace) htr.symm
  · rcases hid with hne | hkept
    · simp only [System.applied, (sys.follow_of_ne dep _ tr hne).1]
    · simp only [System.applied, System.follow, hkept, Bool.false_eq_true, if_false]
  · simp only [System.applied, System.follow, if_pos hrestarts, Function.update_self, newKV]

/-- A step of a service that handles no message leaves the stores alone. -/
theorem System.serve_applied {event : Event} (h : sys.serve dep id event = some sys')
    (hevent : ∀ msg, event ≠ .apply msg) (other : String) : sys'.applied other = sys.applied other := by
  obtain ⟨⟨s, returned⟩, hstep, rfl⟩ := Option.map_eq_some_iff.mp h
  by_cases hother : other = id
  · subst hother
    simp only [System.applied, Function.update_self]
    exact ((KV.Move.of_step hstep).keeps hevent).lastAppliedIndex
  · simp only [System.applied, Function.update_of_ne hother]

/-- What steps of the nodes show that are not proposals. -/
theorem System.advance_shown (hadvance : sys.advance dep action = some (sys', tr))
    (hinput : ∀ cmd, tr.input ≠ .startCommand cmd) : System.Shown dep sys sys' (shownBy tr) := by
  obtain ⟨_, hkept, hstarted⟩ := System.advance_shows hadvance
  cases hrestarts : tr.restarts with
  | true =>
    rw [shownBy, if_pos hrestarts]
    refine .started (Int.le_of_eq (hstarted hrestarts).symm) fun id _ hne => ?_
    exact Int.le_of_eq (hkept id (Or.inl hne)).symm
  | false =>
    have hnone : shownBy tr = [] := by
      simp only [shownBy, hrestarts, Bool.false_eq_true, if_false]
    rw [hnone]
    exact .nothing fun id _ => Int.le_of_eq (hkept id (Or.inr hrestarts)).symm

/-- What a proposal shows: its index is behind all that the process has applied. -/
theorem System.propose_shown (run : SystemReachable dep StorageSucceeds sys) {command : Command}
    (hadvance : sys.advance dep (.act id (.startCommand (dep.codec.marshalCommand command)) []) = some (sys', tr)) :
    System.Shown dep sys sys' (shownBy tr) := by
  obtain ⟨_, hkept, hstarted⟩ := System.advance_shows hadvance
  have hid := System.mem_of_advance hadvance
  cases hrestarts : tr.restarts with
  | true =>
    rw [shownBy, if_pos hrestarts]
    refine .started (Int.le_of_eq (hstarted hrestarts).symm) fun id _ hne => ?_
    exact Int.le_of_eq (hkept id (Or.inl hne)).symm
  | false =>
    have hsame : ∀ id ∈ dep.members.ids, sys.applied id ≤ sys'.applied id :=
      fun id _ => Int.le_of_eq (hkept id (Or.inr hrestarts)).symm
    obtain ⟨_, served, hsource, hmove, _, htr, _⟩ := System.advance_cases hadvance
    cases hsource with
    | act =>
      have hinput : tr.input = .startCommand (dep.codec.marshalCommand command) := by rw [htr]
      simp only [shownBy, hrestarts, hinput, Bool.false_eq_true, if_false]
      cases haccepted : tr.effects.accepted with
      | none => exact .nothing hsame
      | some index =>
        refine .proposed hid ?_ hsame
        rw [hmove.accepted_index haccepted]
        obtain ⟨a, _, hfollows⟩ := System.follows_of_reachable run
        have hcommitted := (hfollows.processes tr.id hid).committed
        have hlast := (Raft.indices_ordered_of_undisturbed (System.undisturbed run) hid).2.1
        simp only [System.applied]
        omega

/-- Handling the next message does not go back. -/
theorem System.receive_applied (run : SystemReachable dep StorageSucceeds sys) {msg : ApplyMsg} {rest : List ApplyMsg}
    (hchannel : sys.channels id = msg :: rest)
    (hserve : { sys with channels := Function.update sys.channels id rest }.serve dep id (.apply msg) = some sys') :
    ∀ other ∈ dep.members.ids, sys.applied other ≤ sys'.applied other := by
  intro other hother
  obtain ⟨⟨s, returned⟩, hstep, rfl⟩ := Option.map_eq_some_iff.mp hserve
  by_cases heq : other = id
  · subst heq
    simp only [System.applied, Function.update_self]
    obtain ⟨a, _, hfollows⟩ := System.follows_of_reachable run
    have hsound := (hfollows.processes other hother).channel (System.running_of_reachable run other)
    rw [hchannel] at hsound
    have hreadable := (System.legible_of_reachable run).channels other msg (by rw [hchannel]; exact List.mem_cons_self)
    cases KV.Move.of_step hstep with
    | apply =>
      simp only
      rw [((sys.services other).handleApply_of_readable hreadable).1]
      exact le_index_of_continues hsound.stream.1
  · simp only [System.applied, Function.update_of_ne heq]
    exact Int.le_refl _

/-- The stores of a later state may stand for those that a step has led to. -/
theorem System.Shown.congr {sys₁ : System} {seen : List Observation} (h : System.Shown dep sys sys₁ seen)
    (hsame : ∀ id, sys'.applied id = sys₁.applied id) : System.Shown dep sys sys' seen := by
  cases h with
  | nothing hkept => exact .nothing fun id hid => hsame id ▸ hkept id hid
  | started hstart hkept => exact .started (hsame _ ▸ hstart) fun id hid hne => hsame id ▸ hkept id hid hne
  | written hindex hkept => exact .written (hsame _ ▸ hindex) fun id hid => hsame id ▸ hkept id hid
  | proposed hid hindex hkept => exact .proposed hid hindex fun id hid => hsame id ▸ hkept id hid

/-- A step of a service shows a call that it makes return. -/
theorem System.serve_shows {event : Event} (h : sys.serve dep id event = some sys') :
    (sys'.acknowledged = sys.acknowledged ∧ sys.shows sys' = []) ∨
      ∃ w : Waiter, event = .check w.call ∧ w.index ≤ sys.applied id ∧ sys.shows sys' = [.written id w.command w.index] := by
  have hcluster := System.serve_cluster h
  obtain ⟨⟨s, returned⟩, hstep, rfl⟩ := Option.map_eq_some_iff.mp h
  have hshows := System.shows_of_acknowledged hcluster rfl
  cases returned with
  | none => exact Or.inl ⟨rfl, hshows⟩
  | some w =>
    obtain ⟨hevent, _, hsatisfied⟩ := (KV.Move.of_step hstep).returned
    exact Or.inr ⟨w, hevent, hsatisfied, hshows⟩

/-- A step of the nodes, and then one of a service that lets no call return and handles no message. -/
theorem System.Shown.then_serve {sys₁ : System} {event : Event} (hadvance : sys.advance dep action = some (sys₁, tr))
    (h : System.Shown dep sys sys₁ (shownBy tr)) (hserve : sys₁.serve dep id event = some sys')
    (hmsg : ∀ msg, event ≠ .apply msg) (hcall : ∀ call, event ≠ .check call) :
    System.Shown dep sys sys' (sys.shows sys') := by
  have hacknowledged : sys'.acknowledged = sys₁.acknowledged := by
    rcases System.serve_shows hserve with ⟨hsame, _⟩ | ⟨w, hcheck, _⟩
    · exact hsame
    · exact absurd hcheck (hcall w.call)
  have htrace : sys'.cluster.trace = tr :: sys.cluster.trace := by
    rw [System.serve_cluster hserve]
    exact (System.advance_shows hadvance).1
  rw [System.shows_of_trace htrace (hacknowledged.trans (System.advance_acknowledged hadvance))]
  exact h.congr fun other => System.serve_applied hserve hmsg other

/-- A step of the nodes alone. -/
theorem System.Shown.advance (hadvance : sys.advance dep action = some (sys', tr))
    (h : System.Shown dep sys sys' (shownBy tr)) : System.Shown dep sys sys' (sys.shows sys') := by
  rw [System.shows_of_trace (System.advance_shows hadvance).1 (System.advance_acknowledged hadvance)]
  exact h

/-- **What a step shows.** -/
theorem System.Turn.shown (run : SystemReachable dep StorageSucceeds sys) {act : SystemAction}
    (hcalm : StorageSucceeds sys act) (hturn : System.Turn dep sys act sys') :
    System.Shown dep sys sys' (sys.shows sys') := by
  cases hturn with
  | raft hservice hadvance =>
    refine .advance hadvance (System.advance_shown hadvance fun cmd hinput => ?_)
    obtain ⟨input, served, hsource, _, _, htr, _⟩ := System.advance_cases hadvance
    rw [htr] at hinput
    obtain ⟨fates, rfl⟩ := hsource.started hinput
    cases hservice
  | @propose id call command fates sys₁ _ tr hadvance hwait =>
    obtain rfl : fates = [] := hcalm
    have hshown := System.propose_shown run hadvance
    rcases hwait with ⟨_, rfl⟩ | ⟨_, _, hserve⟩
    · exact .advance hadvance hshown
    · exact .then_serve hadvance hshown hserve (fun _ h => by cases h) (fun _ h => by cases h)
  | receive hchannel hserve =>
    rcases System.serve_shows hserve with ⟨_, hnone⟩ | ⟨w, hcheck, _⟩
    · have hshows : sys.shows sys' = [] := hnone
      rw [hshows]
      exact .nothing (System.receive_applied run hchannel hserve)
    · cases hcheck
  | @snapshot id fates sys₁ _ tr hhandler hadvance hreturn =>
    have hshown : System.Shown dep sys sys₁ (shownBy tr) := by
      refine System.advance_shown hadvance fun cmd hinput => ?_
      obtain ⟨input, served, hsource, _, _, htr, _⟩ := System.advance_cases hadvance
      rw [htr] at hinput
      obtain ⟨_, htake⟩ := hsource.started hinput
      cases htake
    rcases hreturn with ⟨_, rfl⟩ | hserve
    · exact .advance hadvance hshown
    · exact .then_serve hadvance hshown hserve (fun _ h => by cases h) (fun _ h => by cases h)
  | @serve id event _ hlocal hserve =>
    have hmsg : ∀ msg, event ≠ .apply msg := by
      rintro msg rfl
      cases hlocal
    have hkept : ∀ other ∈ dep.members.ids, sys.applied other ≤ sys'.applied other :=
      fun other _ => Int.le_of_eq (System.serve_applied hserve hmsg other).symm
    rcases System.serve_shows hserve with ⟨_, hnone⟩ | ⟨w, _, hindex, hshows⟩
    · rw [hnone]
      exact .nothing hkept
    · rw [hshows]
      refine .written ?_ hkept
      rw [System.serve_applied hserve hmsg id]
      exact hindex

/-- Clients have been shown no more than what processes have applied, and none has been shown less than before. -/
structure Told (dep : Deployment) (sys : System) (past : List Observation) : Prop where
  shown : ∀ id ∈ dep.members.ids, shownTo id past ≤ sys.applied id
  sessions : Sessions past

/-- What a step shows is no less than what was shown before. -/
theorem Told.step (h : Told dep sys past) {seen : List Observation} (hshown : System.Shown dep sys sys' seen) :
    Told dep sys' (seen ++ past) := by
  cases hshown with
  | nothing hkept => exact ⟨fun id hid => Int.le_trans (h.shown id hid) (hkept id hid), h.sessions⟩
  | @started v hstart hkept =>
    refine ⟨fun id hid => ?_, h.sessions⟩
    by_cases hv : v = id
    · subst hv
      simpa [shownTo] using hstart
    · simpa [shownTo, hv] using Int.le_trans (h.shown id hid) (hkept id hid (Ne.symm hv))
  | @written v command index hindex hkept =>
    refine ⟨fun id hid => ?_, h.sessions⟩
    have hold := Int.le_trans (h.shown id hid) (hkept id hid)
    by_cases hv : v = id
    · subst hv
      simpa [shownTo] using ⟨hindex, hold⟩
    · simpa [shownTo, hv] using hold
  | @proposed v index hid hindex hkept =>
    refine ⟨fun id hid => Int.le_trans (h.shown id hid) (hkept id hid), ?_, h.sessions⟩
    exact Int.lt_of_le_of_lt (h.shown v hid) hindex

/-- A read shows what its process has applied. -/
theorem Told.read (h : Told dep sys past) (hid : id ∈ dep.members.ids) (key : String) (value : Option String) :
    Told dep sys (.read id key value (sys.applied id) :: past) := by
  refine ⟨fun other hother => ?_, h.shown id hid, h.sessions⟩
  have hold := h.shown other hother
  by_cases heq : id = other
  · subst heq
    simpa [shownTo] using hold
  · simpa [shownTo, heq] using hold

/-- All reads are of stores that replay decided commands. -/
def ReadsDecided (codec : Codec) (a : RaftLog) (past : List Observation) : Prop :=
  ∀ id key value index, .read id key value index ∈ past →
    ∃ store, Replays codec a index store ∧ store.get key = value

/-- Steps of the system show no reads. -/
theorem System.Shown.no_read {seen : List Observation} (h : System.Shown dep sys sys' seen) {key : String}
    {value : Option String} {index : Int} : .read id key value index ∉ seen := by
  cases h <;> simp

/-- What a system and its clients know of the log. -/
structure Observed (dep : Deployment) (sys : System) (past : List Observation) (a : RaftLog) : Prop where
  run : SystemReachable dep StorageSucceeds sys
  log : Reachable LogState.First (LogStep dep.members.quorums fun _ _ _ => True) a
  follows : sys.Follows dep a
  told : Told dep sys past
  reads : ReadsDecided dep.codec a past

/-- Every observed step keeps what is known. -/
theorem Observed.step (h : Observed dep sys past a) {label : ClientAction} {seen : List Observation}
    (hallowed : ReadsAllowed sys label) (hstep : sys.observe dep label = some (sys', seen)) :
    ∃ a', Observed dep sys' (seen ++ past) a' := by
  cases label with
  | act action =>
    obtain ⟨after, hnext, hshows⟩ := Option.map_eq_some_iff.mp hstep
    cases hshows
    have hshown := System.Turn.shown h.run hallowed (.of_step hnext)
    obtain ⟨a', path, hfollows⟩ := h.follows.step h.log hallowed hnext
    have hgrows := LogState.Grows.of_path h.log path
    refine ⟨a', .next h.run ⟨action, hallowed, hnext⟩, h.log.trans path, hfollows, h.told.step hshown, ?_⟩
    intro id key value index hread
    rcases List.mem_append.mp hread with hnew | hold
    · exact absurd hnew hshown.no_read
    · obtain ⟨store, hreplays, hget⟩ := h.reads id key value index hold
      exact ⟨store, hreplays.mono (logInvariant_of_reachable h.log) hgrows, hget⟩
  | get id key =>
    simp only [System.observe] at hstep
    split at hstep
    · cases hstep
      refine ⟨a, h.run, h.log, h.follows, h.told.read ‹_› key _, ?_⟩
      intro id' key' value index hread
      rcases List.mem_cons.mp hread with hnew | hold
      · cases hnew
        exact ⟨_, (h.follows.processes id ‹_›).store, rfl⟩
      · exact h.reads id' key' value index hold
    · cases hstep

/-- The committed log of a system. -/
theorem System.Follows.commitHistory (run : SystemReachable dep StorageSucceeds sys) (h : sys.Follows dep a)
    (hinv : LogInvariant dep.members.quorums a) {l : List Raft.Entry} (hl : a.CommittedLog l) :
    sys.cluster.CommitHistory dep.members (l.map Raft.Entry.kept) := by
  refine ⟨h.log.committed hinv hl, fun tr htr i e he => ?_, ?_⟩
  · exact (h.recorded tr htr i e he).committed hinv hl
  · exact (Raft.commitsOnRecord_of_undisturbed (System.undisturbed run)).nodes

/-- **Reads follow one log, and processes do not go back.** In every run of a system whose storage works, with clients
that read wherever and whenever they like, there is one sequence of commands, of which everything that any node has
held as committed is part, such that each read has returned what the last write among the first so many of them says,
as many as its process had applied. Until a process is started again, these are no fewer than for its earlier reads,
and reach to the indices that its calls have returned; and the commands that it proposes come behind all of them. -/
theorem reads_follow_the_log {h : History System Observation}
    (run : HistoryReachable (· = System.first dep) ReadsAllowed (System.observe dep) h) :
    ∃ committed, h.state.cluster.CommitHistory dep.members committed ∧
      (∀ id key value index, .read id key value index ∈ h.past → Explains dep.codec committed key value index) ∧
      Sessions h.past := by
  have hobserved : ∃ a, Observed dep h.state h.past a := by
    refine HistoryReachable.invariant (P := fun sys past => ∃ a, Observed dep sys past a) ?_ ?_ run
    · rintro sys rfl
      refine ⟨Raft.firstLog, .first rfl, .first Raft.firstLog_first, System.follows_first dep, ⟨?_, trivial⟩, ?_⟩
      · exact fun id _ => Int.le_refl _
      · exact fun id key value index hread => absurd hread List.not_mem_nil
    · rintro sys past label sys' seen ⟨a, hobserved⟩ hallowed hstep
      exact hobserved.step hallowed hstep
  obtain ⟨a, hobserved⟩ := hobserved
  have hinv := logInvariant_of_reachable hobserved.log
  obtain ⟨l, hl⟩ := exists_committedLog hobserved.log
  refine ⟨_, hobserved.follows.commitHistory hobserved.run hinv hl, fun id key value index hread => ?_,
    hobserved.told.sessions⟩
  obtain ⟨store, hreplays, rfl⟩ := hobserved.reads id key value index hread
  obtain ⟨hnonneg, hlength, hreplay⟩ := hreplays.committed hinv hl
  obtain ⟨commands, hcommands, hget⟩ := get_of_replay hreplay
  refine ⟨hnonneg, hlength, commands, ?_, hget key⟩
  rw [List.mapM_map] at hcommands
  exact hcommands

/-- A value is put through `a`, acknowledged and read there, while `b`, which has voted for it, still reads nothing. -/
def staleRead : List ClientAction :=
  putCommitted.map .act ++ (Raft.applicationBy "a").map (fun action => .act (.raft action)) ++
    [.act (.receive "a"), .act (.serve "a" .notify), .act (.serve "a" (.check 1)), .get "a" "x", .get "b" "x"]

/-- What clients see of this: both reads follow the log, and only the one at `a` shows the write. -/
theorem reads_follow_the_log_when_stale :
    ∃ h : History System Observation,
      HistoryReachable (· = System.first threeProcesses) ReadsAllowed (System.observe threeProcesses) h ∧
      h.past = [.read "b" "x" none 0, .read "a" "x" (some "1") 1, .written "a" (putCommand "x" "1") 1,
        .proposed "a" 1] ∧
      ∃ committed, h.state.cluster.CommitHistory threeProcesses.members committed ∧
        Explains jsonCodec committed "x" (some "1") 1 ∧ Explains jsonCodec committed "x" none 0 := by
  have hrun : (execute (fun h : History System Observation => ReadsAllowed h.state)
      (History.step (System.observe threeProcesses)) { state := System.first threeProcesses, past := [] }
      staleRead).map History.past = some [.read "b" "x" none 0, .read "a" "x" (some "1") 1,
        .written "a" (putCommand "x" "1") 1, .proposed "a" 1] := by
    decide +kernel
  obtain ⟨h, hh, hpast⟩ : ∃ h, HistoryReachable (· = System.first threeProcesses) ReadsAllowed
      (System.observe threeProcesses) h ∧ _ = _ := exists_history_of_execute rfl hrun
  obtain ⟨committed, hcommitted, hreads, _⟩ := reads_follow_the_log hh
  refine ⟨h, hh, hpast, committed, hcommitted, hreads "a" "x" (some "1") 1 ?_, hreads "b" "x" none 0 ?_⟩
  · simp [hpast]
  · simp [hpast]

end ConsensusLab.Service
