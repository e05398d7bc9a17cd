import ConsensusLab.Service.AppliedTimestamps
import ConsensusLab.Raft.EntryOrigins

/-!
# What ends an apply loop

`RunApplyLoop` returns an error when a command or a snapshot cannot be decoded and when
`consensus.Snapshot` fails. Commands are encoded where they are proposed and snapshots
where they are taken, and the nodes only pass on what they were given: whatever fails and
crashes, a message that reaches a service can be decoded. What is left is the snapshot. It
fails if storage does, or if it is to cover more than the log has, and while storage works
no node delivers what its log has not.
-/

namespace ConsensusLab.Raft

open Foundation

/-- A node is given a command only by its own service. -/
theorem Cluster.Source.started {members : List String} {c : Cluster} {action : Action} {id : String} {cmd : Bytes}
    {input : Input} {served : Option ℕ} (h : Source members c action id input served)
    (hinput : input = .startCommand cmd) : ∃ fates, action = .act id (.startCommand cmd) fates := by
  cases h with
  | act => exact ⟨_, by rw [hinput]⟩
  | deliver => cases hinput
  | @answer _ _ reply => cases reply <;> cases hinput

/-- While storage works, `Snapshot` succeeds for every index that the log reaches. -/
theorem Server.Move.snapshot_succeeds {sv : Server} {fresh : ℕ} {index : Int} {data : Bytes}
    {result : Server × Effects} (hmove : sv.Move fresh [] (.takeSnapshot index data) result)
    (hindex : index ≤ sv.node.lastLogIndex) : result.2.failed = none := by
  cases hmove with
  | takeSnapshot =>
    have hensures : (sv.node.takeSnapshot index data).Ensures False (fun _ => True)
        (fun r _ => r.2 = .ok ()) sv.disk :=
      Node.takeSnapshot_rule (fun _ => rfl) (fun hbeyond => absurd hindex (Int.not_le.mpr hbeyond))
        fun _ _ => ⟨False.elim, False.elim, rfl⟩
    refine Server.perform_rule (P := fun result => result.2.failed = none) hensures (Or.inr rfl) ?_ fun _ _ _ => rfl
    rintro ⟨node, _⟩ disk rfl
    rfl

end ConsensusLab.Raft

namespace ConsensusLab.Service

open Foundation ConsensusLab.KV
open Raft (Action ApplyMsg Bytes Cluster Effects Input Server Snapshot Transition)

/-- The command can be decoded. -/
def Decodable (codec : Codec) (cmd : Bytes) : Prop := (codec.unmarshalCommand cmd).isSome

/-- The data of a snapshot can be restored. -/
def Restorable (codec : Codec) (data : Bytes) : Prop := (Store.restoreSnapshot codec data).isSome

/-- A service passes on to its node only what it has encoded. -/
def Encoded (codec : Codec) : Action → Prop
  | .act _ (.startCommand cmd) _ => Decodable codec cmd
  | .act _ (.takeSnapshot _ data) _ => Restorable codec data
  | _ => True

/-- All that the nodes were given and have passed on can be decoded. -/
structure System.Legible (dep : Deployment) (sys : System) : Prop where
  grounded : sys.cluster.Grounded
  commands : ∀ tr ∈ sys.cluster.trace, ∀ cmd, tr.input = .startCommand cmd → Decodable dep.codec cmd
  snapshots : ∀ id, ∀ snap ∈ (sys.cluster.servers id).snapshots, Restorable dep.codec snap.data
  calls : ∀ call ∈ sys.cluster.calls, ∀ req, call.request = .install req → Restorable dep.codec req.data
  channels : ∀ id, ∀ msg ∈ sys.channels id, Readable dep.codec msg

variable {dep : Deployment} {sys sys' : System} {action : Action} {tr : Transition} {id : String}

/-- Entries are of commands that can be decoded. -/
theorem System.Legible.entry (h : sys.Legible dep) {e : Raft.LogEntry} (he : (sys.cluster.servers id).Has e) :
    Decodable dep.codec e.command := by
  obtain ⟨tr, htr, hinput, _⟩ := h.grounded.servers id e he
  exact h.commands tr htr e.command hinput

/-- Snapshots that come to a node were sent, or its service has taken them. -/
theorem System.Legible.brings (h : sys.Legible dep) (hencoded : Encoded dep.codec action) {input : Input}
    {served : Option ℕ} (hsource : Cluster.Source dep.members.ids sys.cluster action id input served)
    {snap : Snapshot} (hbrings : input.Brings snap) : Restorable dep.codec snap.data := by
  rcases hsource.brings hbrings with ⟨call, hcall, req, hreq, rfl⟩ | ⟨fates, _, rfl⟩
  · exact h.calls call hcall req hreq
  · exact hencoded

/-- What a step of a node delivers can be decoded. -/
theorem System.Legible.delivered (h : sys.Legible dep) {fresh : ℕ} {fates : List Fate} {input : Input}
    {result : Server × Effects} (hmove : (sys.cluster.servers id).Move fresh fates input result) {msg : ApplyMsg}
    (hmsg : result.2.delivered = some msg) : Readable dep.codec msg := by
  cases msg with
  | command cmd index =>
    obtain ⟨e, he, rfl⟩ := hmove.logMove.delivered_command hmsg
    exact h.entry he
  | snapshot data index =>
    obtain ⟨snap, hsnap, rfl, _⟩ := hmove.logMove.delivered_snapshot hmsg
    exact h.snapshots id snap hsnap

/-- What follows in the channels after a step of a node. -/
theorem System.mem_follow_channels {c : Cluster} {msg : ApplyMsg} (h : msg ∈ (sys.follow dep c tr).channels id) :
    msg ∈ sys.channels id ∨ tr.effects.delivered = some msg := by
  by_cases hid : id = tr.id
  · subst hid
    unfold System.follow at h
    split at h
    · simp only [Function.update_self, List.not_mem_nil] at h
    · simpa only [Function.update_self, List.mem_append, Option.mem_toList] using h
  · rw [(sys.follow_of_ne dep c tr hid).2] at h
    exact Or.inl h

/-- A step of the nodes, whatever becomes of its storage calls. -/
theorem System.Legible.advance (h : sys.Legible dep) (hencoded : Encoded dep.codec action)
    (hadvance : sys.advance dep action = some (sys', tr)) : sys'.Legible dep := by
  obtain ⟨input, served, hsource, hmove, hstep, htr, rfl⟩ := System.advance_cases hadvance
  have hinput : tr.input = input := by rw [htr]
  have hgrounded := h.grounded.step hstep
  refine ⟨?_, fun tr' htr' cmd hcmd => ?_, fun other snap hsnap => ?_, fun call hcall req hreq => ?_,
    fun other msg hmsg => ?_⟩
  · rw [System.follow_cluster]
    exact hgrounded
  · rw [System.follow_cluster] at htr'
    rcases List.mem_cons.mp htr' with rfl | hold
    · obtain ⟨fates, rfl⟩ := hsource.started hcmd
      exact hencoded
    · exact h.commands tr' hold cmd hcmd
  · rw [System.follow_cluster] at hsnap
    by_cases hother : other = tr.id
    · subst hother
      rw [Cluster.record_servers_self] at hsnap
      rcases hmove.logMove.snapshots hsnap with hold | hnew
      · exact h.snapshots _ snap hold
      · exact h.brings hencoded hsource hnew
    · rw [Cluster.record_servers_of_ne _ _ _ _ _ hother] at hsnap
      exact h.snapshots other snap hsnap
  · rw [System.follow_cluster] at hcall
    rcases List.mem_append.mp hcall with hold | hnew
    · exact h.calls call hold req hreq
    · obtain ⟨⟨peer, request⟩, hstarted, rfl⟩ := List.mem_map.mp hnew
      obtain rfl : request = .install req := hreq
      have hheld : req.snapshot ∈ (sys.cluster.servers tr.id).snapshots :=
        Server.mem_snapshots.mpr (Or.inl (Or.inl (hmove.installs hstarted)))
      exact h.snapshots tr.id req.snapshot hheld
  · rcases System.mem_follow_channels hmsg with hold | hnew
    · exact h.channels other msg hold
    · exact h.delivered hmove hnew

/-- Services give nothing to read to anybody. -/
theorem System.Legible.serve {event : Event} (h : sys.Legible dep) (hserve : sys.serve dep id event = some sys') :
    sys'.Legible dep := by
  obtain ⟨_, _, rfl⟩ := Option.map_eq_some_iff.mp hserve
  exact ⟨h.grounded, h.commands, h.snapshots, h.calls, h.channels⟩

/-- Without its first message a channel is as legible. -/
theorem System.Legible.tail {msg : ApplyMsg} {rest : List ApplyMsg} (h : sys.Legible dep)
    (hchannel : sys.channels id = msg :: rest) :
    System.Legible dep { sys with channels := Function.update sys.channels id rest } := by
  refine ⟨h.grounded, h.commands, h.snapshots, h.calls, fun other msg' hmsg' => ?_⟩
  by_cases hother : other = id
  · subst hother
    simp only [Function.update_self] at hmsg'
    refine h.channels other msg' ?_
    rw [hchannel]
    exact List.mem_cons_of_mem _ hmsg'
  · simp only [Function.update_of_ne hother] at hmsg'
    exact h.channels other msg' hmsg'

/-- The nodes act by themselves on nothing that a service would have to encode. -/
theorem encoded_of_not_byService (codec : Codec) (h : action.byService = false) : Encoded codec action := by
  cases action with
  | act id input fates =>
    cases input with
    | startCommand | takeSnapshot => cases h
    | _ => trivial
  | deliver | answer => trivial

/-- Every step of a system keeps it legible. -/
theorem System.Legible.step {act : SystemAction} (h : sys.Legible dep) (hturn : System.Turn dep sys act sys') :
    sys'.Legible dep := by
  cases hturn with
  | raft hservice hadvance => exact h.advance (encoded_of_not_byService dep.codec hservice) hadvance
  | @propose id call command fates sys₁ _ tr hadvance hwait =>
    have hencoded : Encoded dep.codec (.act id (.startCommand (dep.codec.marshalCommand command)) fates) :=
      readable_command dep.codec command 0
    have hproposed := h.advance hencoded hadvance
    rcases hwait with ⟨_, rfl⟩ | ⟨_, _, hserve⟩
    · exact hproposed
    · exact hproposed.serve hserve
  | receive hchannel hserve => exact (h.tail hchannel).serve hserve
  | @snapshot id fates sys₁ _ tr _ hadvance hreturn =>
    have hencoded : Encoded dep.codec (.act id (.takeSnapshot (sys.services id).lastAppliedIndex
        ((sys.services id).store.snapshot dep.codec)) fates) :=
      readable_snapshot dep.codec (sys.services id).store 0
    have htaken := h.advance hencoded hadvance
    rcases hreturn with ⟨_, rfl⟩ | hserve
    · exact htaken
    · exact htaken.serve hserve
  | serve _ hserve => exact h.serve hserve

/-- Every system is legible, whatever fails. -/
theorem System.legible_of_reachable {allowed : System → SystemAction → Prop} (run : SystemReachable dep allowed sys) :
    sys.Legible dep := by
  refine run.invariant ?_ ?_
  · rintro sys rfl
    refine ⟨Cluster.grounded_first _, fun tr htr => absurd htr List.not_mem_nil, fun id snap hsnap => ?_,
      fun call hcall => absurd hcall List.not_mem_nil, fun id msg hmsg => absurd hmsg List.not_mem_nil⟩
    exact absurd hsnap (Raft.boot_snapshots_empty _ _ snap)
  · rintro sys sys' _ h ⟨act, _, hstep⟩
    exact h.step (.of_step hstep)

/-- A service stops on a message that it cannot decode, and on a snapshot that fails. -/
theorem KV.Move.stops {codec : Codec} {s : KV} {e : Event} {result : KV × Option Waiter}
    (hmove : KV.Move codec s e result) (hrunning : s.handler ≠ .stopped) (hstopped : result.1.handler = .stopped) :
    (∃ msg, e = .apply msg ∧ ¬Readable codec msg) ∨ e = .snapshotTaken false := by
  cases hmove with
  | apply msg =>
    refine Or.inl ⟨msg, rfl, fun hreadable => ?_⟩
    obtain ⟨_, _, snapshotDue, hhandler⟩ := s.handleApply_of_readable hreadable
    rw [hhandler] at hstopped
    cases hstopped
  | @notify snapshotDue =>
    cases snapshotDue <;> cases hstopped
  | snapshotTaken ok =>
    cases ok with
    | true => cases hstopped
    | false => exact Or.inr rfl
  | wait | acknowledge | park | forget | wake | expire => exact absurd hstopped hrunning

/-- The nodes stop no service. -/
theorem System.running_of_advance (hadvance : sys.advance dep action = some (sys', tr))
    (hrunning : (sys.services id).handler ≠ .stopped) : (sys'.services id).handler ≠ .stopped := by
  obtain ⟨_, _, _, _, _, _, rfl⟩ := System.advance_cases hadvance
  by_cases hid : id = tr.id
  · subst hid
    unfold System.follow
    split
    · simp only [Function.update_self]
      exact fun h => by cases h
    · exact hrunning
  · rw [(sys.follow_of_ne dep _ tr hid).1]
    exact hrunning

/-- A step of one service stops no other, and that one only as it says. -/
theorem System.stops_of_serve {event : Event} {other : String} (hserve : sys.serve dep id event = some sys')
    (hrunning : (sys.services other).handler ≠ .stopped) (hstopped : (sys'.services other).handler = .stopped) :
    other = id ∧ ((∃ msg, event = .apply msg ∧ ¬Readable dep.codec msg) ∨ event = .snapshotTaken false) := by
  obtain ⟨⟨s, returned⟩, hstep, rfl⟩ := Option.map_eq_some_iff.mp hserve
  by_cases hother : other = id
  · subst hother
    simp only [Function.update_self] at hstopped
    exact ⟨rfl, (KV.Move.of_step hstep).stops hrunning hstopped⟩
  · simp only [Function.update_of_ne hother] at hstopped
    exact absurd hstopped hrunning

/-- The only step that stops the apply loop of a service is a snapshot which its node refuses to take. -/
theorem System.Legible.stops {act : SystemAction} (h : sys.Legible dep) (hturn : System.Turn dep sys act sys')
    (hrunning : (sys.services id).handler ≠ .stopped) (hstopped : (sys'.services id).handler = .stopped) :
    ∃ fates sys₁ tr, act = .snapshot id fates ∧ (sys.services id).handler = .snapshotting ∧
      sys.advance dep (.act id (.takeSnapshot (sys.services id).lastAppliedIndex
        ((sys.services id).store.snapshot dep.codec)) fates) = some (sys₁, tr) ∧
      tr.effects.failed ≠ none ∧ sys'.cluster = sys₁.cluster := by
  cases hturn with
  | raft _ hadvance => exact absurd hstopped (System.running_of_advance hadvance hrunning)
  | propose hadvance hwait =>
    have hproposed := System.running_of_advance hadvance hrunning
    rcases hwait with ⟨_, rfl⟩ | ⟨_, _, hserve⟩
    · exact absurd hstopped hproposed
    · rcases (System.stops_of_serve hserve hproposed hstopped).2 with ⟨_, happly, _⟩ | htaken
      · cases happly
      · cases htaken
  | @receive other msg rest _ hchannel hserve =>
    obtain ⟨_, ⟨_, happly, hunreadable⟩ | htaken⟩ :=
      System.stops_of_serve hserve (fun h => hrunning h) hstopped
    · cases happly
      exact absurd (h.channels other msg (by rw [hchannel]; exact List.mem_cons_self)) hunreadable
    · cases htaken
  | @snapshot other fates sys₁ _ tr hhandler hadvance hreturn =>
    have htaken := System.running_of_advance hadvance hrunning
    rcases hreturn with ⟨_, rfl⟩ | hserve
    · exact absurd hstopped htaken
    · obtain ⟨rfl, ⟨_, happly, _⟩ | hfailed⟩ := System.stops_of_serve hserve htaken hstopped
      · cases happly
      · refine ⟨fates, sys₁, tr, rfl, hhandler, hadvance, fun hnone => ?_, System.serve_cluster hserve⟩
        rw [hnone] at hfailed
        cases hfailed
  | serve hlocal hserve =>
    rcases (System.stops_of_serve hserve hrunning hstopped).2 with ⟨_, rfl, _⟩ | rfl
    · cases hlocal
    · cases hlocal

/-- A node has refused to take the snapshot that its service has asked for. -/
def RefusesSnapshot (id : String) (tr : Transition) : Prop :=
  tr.id = id ∧ (∃ index data, tr.input = .takeSnapshot index data) ∧ tr.effects.failed ≠ none

/-- The node of a process has refused to take a snapshot since the process was last started. -/
def RefusedSnapshot (id : String) (c : Cluster) : Prop :=
  ∃ later tr earlier, c.trace = later ++ tr :: earlier ∧ RefusesSnapshot id tr ∧
    ∀ tr' ∈ later, tr'.id = id → tr'.restarts = false

/-- What has been refused stays so until the process is started again. -/
theorem System.refused_of_advance (hadvance : sys.advance dep action = some (sys', tr))
    (hstopped : (sys'.services id).handler = .stopped) (h : RefusedSnapshot id sys.cluster) :
    RefusedSnapshot id sys'.cluster := by
  obtain ⟨input, served, _, _, _, htr, rfl⟩ := System.advance_cases hadvance
  obtain ⟨later, refused, earlier, htrace, hrefuses, hlater⟩ := h
  have hrecorded : ((sys.follow dep (sys.cluster.record tr.id input served tr.after tr.effects) tr).cluster).trace =
      tr :: sys.cluster.trace := by
    rw [System.follow_cluster]
    exact congrArg (· :: sys.cluster.trace) htr.symm
  refine ⟨tr :: later, refused, earlier, by rw [hrecorded, htrace]; rfl, hrefuses, fun tr' htr' hid => ?_⟩
  rcases List.mem_cons.mp htr' with rfl | hold
  · -- a new service is not stopped
    by_contra hrestarts
    rw [System.follow, if_pos (by simpa using hrestarts), ← hid] at hstopped
    simp only [Function.update_self] at hstopped
    cases hstopped
  · exact hlater tr' hold hid

/-- A service that has stopped stays so, on record, until it is started again. -/
theorem System.Turn.refused {act : SystemAction} (hturn : System.Turn dep sys act sys')
    (hbefore : (sys.services id).handler = .stopped) (hstopped : (sys'.services id).handler = .stopped)
    (h : RefusedSnapshot id sys.cluster) : RefusedSnapshot id sys'.cluster := by
  cases hturn with
  | raft _ hadvance => exact System.refused_of_advance hadvance hstopped h
  | propose hadvance hwait =>
    rcases hwait with ⟨_, rfl⟩ | ⟨_, _, hserve⟩
    · exact System.refused_of_advance hadvance hstopped h
    · rw [System.serve_cluster hserve]
      refine System.refused_of_advance hadvance ?_ h
      by_contra hrunning
      rcases (System.stops_of_serve hserve hrunning hstopped).2 with ⟨_, happly, _⟩ | htaken
      · cases happly
      · cases htaken
  | snapshot hhandler hadvance hreturn =>
    rcases hreturn with ⟨_, rfl⟩ | hserve
    · exact System.refused_of_advance hadvance hstopped h
    · rw [System.serve_cluster hserve]
      refine System.refused_of_advance hadvance ?_ h
      by_contra hrunning
      obtain ⟨rfl, _⟩ := System.stops_of_serve hserve hrunning hstopped
      rw [hbefore] at hhandler
      cases hhandler
  | receive _ hserve | serve _ hserve =>
    rw [System.serve_cluster hserve]
    exact h

/-- **What ends an apply loop.** In every run of a system, whatever fails and crashes: if the apply loop of a service
has returned an error, then its node has refused to take a snapshot since the process was last started. No message
that a node delivers ends the loop. -/
theorem stopped_loops_were_refused {allowed : System → SystemAction → Prop} (run : SystemReachable dep allowed sys)
    (hstopped : (sys.services id).handler = .stopped) : RefusedSnapshot id sys.cluster := by
  revert hstopped
  refine run.invariant
    (P := fun sys => (sys.services id).handler = .stopped → RefusedSnapshot id sys.cluster) ?_ ?_
  · rintro sys rfl hstopped
    cases hstopped
  · rintro sys sys' run ih ⟨act, _, hstep⟩ hstopped
    by_cases hbefore : (sys.services id).handler = .stopped
    · exact System.Turn.refused (.of_step hstep) hbefore hstopped (ih hbefore)
    · obtain ⟨fates, sys₁, tr, _, _, hadvance, hfailed, hcluster⟩ :=
        (System.legible_of_reachable run).stops (.of_step hstep) hbefore hstopped
      obtain ⟨input, served, hsource, _, _, htr, rfl⟩ := System.advance_cases hadvance
      rw [hcluster, System.follow_cluster]
      cases hsource with
      | act =>
        refine ⟨[], tr, sys.cluster.trace, congrArg (· :: sys.cluster.trace) htr.symm, ⟨rfl, ?_, hfailed⟩, ?_⟩
        · exact ⟨_, _, by rw [htr]⟩
        · exact fun tr' htr' => absurd htr' List.not_mem_nil

/-- Node `a` applies the command that was put, and its service asks for a snapshot. -/
def snapshotAsked (fates : List Fate) : List SystemAction :=
  putCommitted ++ (Raft.applicationBy "a").map .raft ++ [.receive "a", .serve "a" .notify, .snapshot "a" fates]

/-- The snapshot cannot be stored, and the service of `a` stops. -/
theorem stopped_loops_were_refused_for_storage :
    ∃ sys, SystemReachable threeProcesses (fun _ _ => True) sys ∧ (sys.services "a").handler = .stopped ∧
      RefusedSnapshot "a" sys.cluster := by
  have hrun : (execute (fun _ _ => True) (System.step threeProcesses) (System.first threeProcesses)
      (snapshotAsked [.fails])).map (fun sys => (sys.services "a").handler) = some .stopped := by
    decide +kernel
  obtain ⟨sys, hsys, hstopped⟩ := exists_systemReachable_of_execute hrun
  exact ⟨sys, hsys, hstopped, stopped_loops_were_refused hsys hstopped⟩

/-- A service asks for snapshots that its node's log reaches. -/
theorem System.snapshot_within (run : SystemReachable dep StorageSucceeds sys) (hid : id ∈ dep.members.ids)
    (hhandler : (sys.services id).handler = .snapshotting) :
    (sys.services id).lastAppliedIndex ≤ (sys.cluster.servers id).node.lastLogIndex := by
  obtain ⟨a, _, hfollows⟩ := System.follows_of_reachable run
  obtain ⟨_, hcommit, happlied⟩ := Raft.indices_ordered_of_undisturbed (System.undisturbed run) hid
  have hdue := (hfollows.processes id hid).due (by rw [hhandler]; rfl)
  omega

/-- While storage works, no service stops. -/
theorem System.running_of_reachable (run : SystemReachable dep StorageSucceeds sys) (id : String) :
    (sys.services id).handler ≠ .stopped := by
  refine run.invariant (P := fun sys => (sys.services id).handler ≠ .stopped) ?_ ?_
  · rintro sys rfl
    exact fun h => by cases h
  · rintro sys sys' run hrunning ⟨act, hcalm, hstep⟩ hstopped
    obtain ⟨fates, sys₁, tr, rfl, hhandler, hadvance, hfailed, _⟩ :=
      (System.legible_of_reachable run).stops (.of_step hstep) hrunning hstopped
    obtain rfl : fates = [] := hcalm
    have hindex := System.snapshot_within run (System.mem_of_advance hadvance) hhandler
    obtain ⟨input, served, hsource, hmove, _, _, _⟩ := System.advance_cases hadvance
    cases hsource with
    | act => exact hfailed (hmove.snapshot_succeeds hindex)

/-- **Apply loops never end while storage works.** In every run of a system in which every storage call succeeds, no
apply loop of a service has returned an error: each message that waits for a service can be decoded, and each snapshot
that a service asks for is within the log of its node. -/
theorem apply_loops_never_stop (run : SystemReachable dep StorageSucceeds sys) :
    ∀ id, (sys.services id).handler ≠ .stopped ∧ (∀ msg ∈ sys.channels id, Readable dep.codec msg) ∧
      (id ∈ dep.members.ids → (sys.services id).handler = .snapshotting →
        (sys.services id).lastAppliedIndex ≤ (sys.cluster.servers id).node.lastLogIndex) := by
  intro id
  refine ⟨System.running_of_reachable run id, ?_, System.snapshot_within run⟩
  exact (System.legible_of_reachable run).channels id

/-- The service of `a` goes on after its snapshot. -/
theorem apply_loops_never_stop_after_snapshot :
    ∃ sys, SystemReachable threeProcesses StorageSucceeds sys ∧
      (sys.cluster.servers "a").node.snapshotIndex = 1 ∧ (sys.services "a").handler ≠ .stopped := by
  have hrun : (execute StorageSucceeds (System.step threeProcesses) (System.first threeProcesses)
      (snapshotAsked [])).map (fun sys => (sys.cluster.servers "a").node.snapshotIndex) = some 1 := by
    decide +kernel
  obtain ⟨sys, hsys, hsnap⟩ := exists_systemReachable_of_execute hrun
  exact ⟨sys, hsys, hsnap, (apply_loops_never_stop hsys "a").1⟩

end ConsensusLab.Service
