import ConsensusLab.Foundation.Inevitability
import ConsensusLab.Raft.ApplyPipeline
import ConsensusLab.Service.SnapshotCadence

/-!
# What is committed gets applied

Between the commit index of a node and the store of its service stand the goroutines that
notify the apply loop, the apply loop, a channel of bounded capacity, and the loop of the
service, which notifies the waiting calls and has the node compact its log in between.
They wait for each other: the apply loop for a token and for room in the channel, the
service for a message and for the node. None of this can get stuck or go on for ever
without new work. The work of a process, in the sense of what is left to be done before it
rests, shrinks with each of these steps.

A process whose apply loop has been overtaken by an installed snapshot panics on its way.
The new process starts from that snapshot and catches up as well, but only to the commit
index that it has from there.
-/

namespace ConsensusLab.Service

open Foundation ConsensusLab.KV
open Raft (Action ApplyMsg Cluster Effects Input Server Transition Undisturbed)

/-- What is left to do for the loop of a service where it stands. -/
def Handler.work : Handler → ℕ
  | receiving | stopped => 0
  | snapshotting => 1
  | notifying _ => 2

/-- What is left to do for a process until it rests. -/
def Process.work (p : Process) : ℕ :=
  p.server.work + 3 * p.channel.length + p.service.handler.work

/-- The steps by which a process applies what is committed, over a channel of the given capacity. -/
def Applying (id : String) (capacity : ℕ) (sys : System) : SystemAction → Prop
  | .raft (.act v input fates) => v = id ∧ input.applies = true ∧ fates = [] ∧
      (input.delivers = true → (sys.channels id).length < capacity)
  | .receive v => v = id
  | .snapshot v fates => v = id ∧ fates = []
  | .serve v event => v = id ∧ event = .notify
  | .raft (.deliver _ _) | .raft (.answer _ _ _) | .propose _ _ _ _ => False

/-- The service has applied everything that its node knows to be committed, and rests. -/
def System.CaughtUp (id : String) (sys : System) : Prop :=
  sys.channels id = [] ∧ (sys.services id).handler = .receiving ∧
    (sys.services id).lastAppliedIndex = (sys.cluster.servers id).node.commitIndex

/-- The nodes can take the steps that a node can take. -/
theorem System.exists_advance {dep : Deployment} {sys : System} {id : String} {input : Input} {fates : List Fate}
    (hid : id ∈ dep.members.ids) (hlocal : input.isLocal = true)
    (hstep : ((sys.cluster.servers id).step sys.cluster.calls.length fates input).isSome) :
    ∃ sys' tr, sys.advance dep (.act id input fates) = some (sys', tr) := by
  obtain ⟨⟨after, effects⟩, hstep⟩ := Option.isSome_iff_exists.mp hstep
  have hnodes : sys.cluster.step dep.members.ids (.act id input fates) =
      some (sys.cluster.record id input none after effects) := by
    simp only [Cluster.step, Cluster.advance, hid, hlocal, hstep, and_self, if_true, Option.map_some]
  exact ⟨_, _, by rw [System.advance, hnodes]; rfl⟩

variable {dep : Deployment} {sys sys' : System} {id : String} {capacity : ℕ} {act : SystemAction}

/-- These steps use no storage that fails. -/
theorem storageSucceeds_of_applying (h : Applying id capacity sys act) : StorageSucceeds sys act := by
  cases act with
  | raft action =>
    cases action with
    | act => exact h.2.2.1
    | deliver | answer => exact h.elim
  | propose => exact h.elim
  | receive | serve => rfl
  | snapshot => exact h.2

/-- One step of a service, as its process sees it. -/
theorem System.process_of_serve {event : Event} (h : sys.serve dep id event = some sys') :
    ∃ s returned, KV.Move dep.codec (sys.services id) event (s, returned) ∧
      sys'.process id = { sys.process id with service := s } := by
  obtain ⟨⟨s, returned⟩, hstep, rfl⟩ := Option.map_eq_some_iff.mp h
  refine ⟨s, returned, .of_step hstep, ?_⟩
  simp only [System.process, Function.update_self]

/-- Messages do not lead back. -/
theorem Streams.le_streamEnd {codec : Codec} {a : Raft.RaftLog} {reached : Int} {channel : List ApplyMsg}
    (h : Streams codec a reached channel) : reached ≤ streamEnd reached channel := by
  induction channel generalizing reached with
  | nil => exact Int.le_refl _
  | cons msg rest ih => exact Int.le_trans (le_index_of_continues h.1) (ih h.2.2)

/-- What a node has applied has a length. -/
theorem System.lastApplied_nonneg (run : SystemReachable dep StorageSucceeds sys) (hid : id ∈ dep.members.ids)
    (hentries : (sys.cluster.servers id).applier.inEntries = true) :
    0 ≤ (sys.cluster.servers id).node.lastApplied := by
  obtain ⟨a, _, hfollows⟩ := System.follows_of_reachable run
  have hprocess := hfollows.processes id hid
  have hchannel := hprocess.channel (System.running_of_reachable run id)
  have hend := hchannel.stream.le_streamEnd
  have hnonneg := hprocess.store.nonneg
  have hdelivers := hchannel.delivers
  cases happlier : (sys.cluster.servers id).applier with
  | applying =>
    rw [happlier] at hdelivers
    have := hdelivers.1
    omega
  | sendingEntry =>
    rw [happlier] at hdelivers
    have := hdelivers.2.1
    omega
  | parked | draining | sendingSnapshot | sentSnapshot =>
    rw [happlier] at hentries
    cases hentries

/-- The disk of a process that has been overtaken has a snapshot. -/
theorem System.stored_of_overtaken (run : SystemReachable dep StorageSucceeds sys) (hid : id ∈ dep.members.ids)
    (h : (sys.cluster.servers id).Overtaken) : (sys.cluster.servers id).disk.snapshot ≠ none := by
  obtain ⟨a, _, hfollows⟩ := System.follows_of_reachable run
  have hmirror := (hfollows.log.servers id hid).log
  have hnonneg := System.lastApplied_nonneg run hid h.1
  have hlt := h.2
  rw [hmirror.disk.snapshot]
  exact hmirror.logs.held (by omega)

/-- A step of the apply loop, or of a goroutine that wakes it. -/
theorem System.applying_advance (run : SystemReachable dep StorageSucceeds sys) (hid : id ∈ dep.members.ids)
    {input : Input} {tr : Transition} (happlies : input.applies = true)
    (hadvance : sys.advance dep (.act id input []) = some (sys', tr)) :
    (sys'.process id).work < (sys.process id).work ∧
      (¬(sys.cluster.servers id).Overtaken → ¬(sys'.cluster.servers id).Overtaken ∧
        (sys'.cluster.servers id).node.commitIndex = (sys.cluster.servers id).node.commitIndex) := by
  have hcovered := Raft.covered_of_undisturbed (System.undisturbed run) id
  obtain ⟨_, served, hsource, hmove, _, htr, rfl⟩ := System.advance_cases hadvance
  cases hsource with
  | act =>
    have hinput : tr.input ≠ .restart := by
      rw [htr]
      rintro rfl
      cases happlies
    have hserver : ((sys.follow dep (sys.cluster.record tr.id input none tr.after tr.effects) tr).cluster).servers tr.id =
        tr.after := by
      rw [System.follow_cluster, Cluster.record_servers_self]
    rw [hserver]
    cases hrestarts : tr.restarts with
    | true =>
      have hlost := (restarts_iff.mp hrestarts).resolve_left hinput
      obtain ⟨hover, hboot, _⟩ := hmove.applies_lost happlies hlost
      refine ⟨?_, fun h => absurd hover h⟩
      have hstored := System.stored_of_overtaken run hid hover
      have hless : tr.after.work < 10 := by
        simp only at hboot
        rw [hboot]
        exact Server.work_boot _ _ hstored
      have hmore : 10 ≤ (sys.cluster.servers tr.id).work := by
        simp only [Server.work, if_pos hover]
        omega
      rw [System.process_follow_restarted _ hrestarts, Cluster.record_servers_self]
      simp only [Process.work, System.process, newKV, Handler.work, List.length_nil]
      omega
    | false =>
      have hkept : tr.effects.lost = none := by
        by_contra hlost
        rw [restarts_iff.mpr (Or.inr hlost)] at hrestarts
        cases hrestarts
      obtain ⟨hless, hcommit, hover⟩ := hmove.applies_kept happlies hcovered hkept
      refine ⟨?_, fun h => ⟨fun hafter => h (hover hafter), hcommit⟩⟩
      rw [System.process_follow_kept _ hrestarts, Cluster.record_servers_self]
      simp only [Process.work, System.process, List.length_append] at hless ⊢
      omega

/-- A service has its node compact its log. -/
theorem System.applying_snapshot (run : SystemReachable dep StorageSucceeds sys) (hid : id ∈ dep.members.ids)
    {sys₁ : System} {tr : Transition} (hhandler : (sys.services id).handler = .snapshotting)
    (hadvance : sys.advance dep (.act id (.takeSnapshot (sys.services id).lastAppliedIndex
      ((sys.services id).store.snapshot dep.codec)) []) = some (sys₁, tr)) :
    tr.restarts = false ∧ ∃ after, sys₁.process id = { sys.process id with server := after } ∧
      after.work ≤ (sys.cluster.servers id).work ∧ (after.Overtaken → (sys.cluster.servers id).Overtaken) ∧
      after.node.commitIndex = (sys.cluster.servers id).node.commitIndex := by
  obtain ⟨a, _, hfollows⟩ := System.follows_of_reachable run
  have hdue := (hfollows.processes id hid).due (by rw [hhandler]; rfl)
  obtain ⟨_, served, hsource, hmove, _, htr, rfl⟩ := System.advance_cases hadvance
  cases hsource with
  | act =>
    obtain ⟨hwork, hcommit, hover, hdelivered, hlost⟩ := hmove.takeSnapshot_work hdue
    simp only at hdelivered
    have hkept : tr.restarts = false := by
      by_contra hrestarts
      rcases restarts_iff.mp (by simpa using hrestarts) with hinput | hdead
      · rw [htr] at hinput
        cases hinput
      · exact hdead hlost
    refine ⟨hkept, tr.after, ?_, hwork, hover, hcommit⟩
    rw [System.process_follow_kept _ hkept, Cluster.record_servers_self, hdelivered, Option.toList_none,
      List.append_nil]
    rfl

/-- The return of `consensus.Snapshot` leaves the loop of the service nothing to do. -/
theorem KV.snapshotTaken_work (s : KV) (ok : Bool) : (s.snapshotTaken ok).handler.work = 0 := by
  cases ok <;> rfl

/-- What one of these steps leaves to be done. -/
theorem System.Turn.applying_work (run : SystemReachable dep StorageSucceeds sys) (hid : id ∈ dep.members.ids)
    (hturn : System.Turn dep sys act sys') (happlying : Applying id capacity sys act) :
    (sys'.process id).work < (sys.process id).work ∧
      (¬(sys.cluster.servers id).Overtaken → ¬(sys'.cluster.servers id).Overtaken ∧
        (sys'.cluster.servers id).node.commitIndex = (sys.cluster.servers id).node.commitIndex) := by
  cases hturn with
  | @raft action _ tr _ hadvance =>
    cases action with
    | act =>
      obtain ⟨rfl, happlies, rfl, _⟩ := happlying
      exact System.applying_advance run hid happlies hadvance
    | deliver | answer => exact happlying.elim
  | propose => exact happlying.elim
  | @receive _ msg rest _ hchannel hserve =>
    cases happlying
    obtain ⟨s, _, hmove, hprocess⟩ := System.process_of_serve hserve
    have hserver : sys'.cluster.servers id = sys.cluster.servers id :=
      congrArg Process.server hprocess
    rw [hserver]
    refine ⟨?_, fun h => ⟨h, rfl⟩⟩
    have hhandler : s.handler.work ≤ 2 := by cases s.handler <;> simp [Handler.work]
    rw [hprocess]
    simp only [Process.work, System.process, Function.update_self, hchannel, List.length_cons]
    omega
  | @snapshot v fates sys₁ _ tr hhandler hadvance hreturn =>
    obtain ⟨hv, rfl⟩ := happlying
    subst v
    obtain ⟨hkept, after, hprocess, hwork, hover, hcommit⟩ := System.applying_snapshot run hid hhandler hadvance
    rcases hreturn with ⟨hrestarts, _⟩ | hserve
    · rw [hkept] at hrestarts
      cases hrestarts
    · obtain ⟨s, _, hmove, hprocess'⟩ := System.process_of_serve hserve
      rw [hprocess] at hprocess'
      have hserver : sys'.cluster.servers id = after := congrArg Process.server hprocess'
      rw [hserver]
      refine ⟨?_, fun h => ⟨fun hafter => h (hover hafter), hcommit⟩⟩
      have hrests : s.handler.work = 0 := by
        cases hmove with
        | snapshotTaken => exact KV.snapshotTaken_work ..
      have hbefore : (sys.services id).handler.work = 1 := by
        rw [hhandler]
        rfl
      rw [hprocess']
      simp only [Process.work, System.process]
      omega
  | @serve v event _ _ hserve =>
    obtain ⟨hv, rfl⟩ := happlying
    subst v
    obtain ⟨s, _, hmove, hprocess⟩ := System.process_of_serve hserve
    have hserver : sys'.cluster.servers id = sys.cluster.servers id := congrArg Process.server hprocess
    rw [hserver]
    refine ⟨?_, fun h => ⟨h, rfl⟩⟩
    rw [hprocess]
    cases hmove with
    | @notify snapshotDue hhandler =>
      have hless : ((sys.services id).notifyApply snapshotDue).handler.work ≤ 1 := by
        cases snapshotDue <;> simp [KV.notifyApply, Handler.work]
      simp only [Process.work, System.process, hhandler, Handler.work] at hless ⊢
      omega

/-- A process whose service waits for a message and has none has caught up, or its node can take a step. -/
theorem System.exists_applying_of_idle (run : SystemReachable dep StorageSucceeds sys) (hid : id ∈ dep.members.ids)
    (hcapacity : 0 < capacity) (hchannel : sys.channels id = []) (hhandler : (sys.services id).handler = .receiving)
    (h : ¬sys.CaughtUp id) : ∃ sys', SystemStep dep (Applying id capacity) sys sys' := by
  have hundisturbed := System.undisturbed run
  have halert := (Raft.alert_of_undisturbed hundisturbed id hid).1
  have hawake : ¬(sys.cluster.servers id).Asleep := by
    intro hasleep
    obtain ⟨a, _, hfollows⟩ := System.follows_of_reachable run
    have hdelivers := ((hfollows.processes id hid).channel (System.running_of_reachable run id)).delivers
    obtain ⟨hpending, happlied⟩ := halert.applied hasleep
    have hordered := (Raft.indices_ordered_of_undisturbed hundisturbed hid).2.2
    rw [hchannel, hasleep.1] at hdelivers
    have hreached : (sys.cluster.servers id).node.lastApplied = (sys.services id).lastAppliedIndex :=
      hdelivers.1 hpending
    exact h ⟨hchannel, hhandler, by omega⟩
  obtain ⟨input, happlies, hlocal, hstep⟩ := halert.exists_applies hawake sys.cluster.calls.length
  obtain ⟨sys', tr, hadvance⟩ := System.exists_advance hid hlocal hstep
  refine ⟨sys', .raft (.act id input []), ⟨rfl, happlies, rfl, fun _ => ?_⟩, ?_⟩
  · rw [hchannel]
    exact hcapacity
  · have hservice : (Action.act id input []).byService = false := by
      cases input <;> first | rfl | cases happlies
    simp only [System.step, hservice, Bool.false_eq_true, if_false, hadvance, Option.map_some]

/-- A service can take the steps of its loop. -/
theorem System.exists_serve {event : Event} (h : ((sys.services id).step dep.codec event).isSome) :
    ∃ sys', sys.serve dep id event = some sys' := by
  obtain ⟨_, h⟩ := Option.isSome_iff_exists.mp h
  exact ⟨_, by rw [System.serve, h]; rfl⟩

/-- A process that has not caught up can take one of these steps. -/
theorem System.exists_applying (run : SystemReachable dep StorageSucceeds sys) (hid : id ∈ dep.members.ids)
    (hcapacity : 0 < capacity) (h : ¬sys.CaughtUp id) :
    ∃ sys', SystemStep dep (Applying id capacity) sys sys' := by
  cases hhandler : (sys.services id).handler with
  | stopped => exact absurd hhandler (System.running_of_reachable run id)
  | notifying snapshotDue =>
    have hstep : ((sys.services id).step dep.codec .notify).isSome := by
      simp only [KV.step, hhandler, Option.isSome_some]
    obtain ⟨sys', hserve⟩ := System.exists_serve hstep
    exact ⟨sys', .serve id .notify, ⟨rfl, rfl⟩, hserve⟩
  | snapshotting =>
    obtain ⟨sys₁, tr, hadvance⟩ : ∃ sys₁ tr, sys.advance dep (.act id (.takeSnapshot
        (sys.services id).lastAppliedIndex ((sys.services id).store.snapshot dep.codec)) []) = some (sys₁, tr) :=
      System.exists_advance hid rfl rfl
    obtain ⟨hkept, after, hprocess, _⟩ := System.applying_snapshot run hid hhandler hadvance
    have hservice : sys₁.services id = sys.services id := congrArg Process.service hprocess
    have hstep : ((sys₁.services id).step dep.codec (.snapshotTaken tr.effects.failed.isNone)).isSome := by
      simp only [KV.step, hservice, hhandler, Option.isSome_some]
    obtain ⟨sys', hserve⟩ := System.exists_serve hstep
    refine ⟨sys', .snapshot id [], ⟨rfl, rfl⟩, ?_⟩
    simp only [System.step, hhandler, hadvance, Option.bind_eq_bind, Option.bind_some, hkept, Bool.false_eq_true,
      if_false, hserve]
  | receiving =>
    cases hchannel : sys.channels id with
    | nil => exact System.exists_applying_of_idle run hid hcapacity hchannel hhandler h
    | cons msg rest =>
      have hstep : ((sys.services id).step dep.codec (.apply msg)).isSome := by
        simp only [KV.step, hhandler, Option.isSome_some]
      obtain ⟨sys', hserve⟩ : ∃ sys', System.serve dep { sys with channels := Function.update sys.channels id rest } id
          (.apply msg) = some sys' := System.exists_serve hstep
      refine ⟨sys', .receive id, rfl, ?_⟩
      simp only [System.step, hchannel, hserve]

/-- **What is committed gets applied.** In every state that runs of a system with working storage reach, and for every
member: however the goroutines between its node and its store take their steps, over a channel that holds at least one
message, they come to rest within as many steps as there is work, with everything applied that the node knows to be
committed. They get stuck nowhere before. The commit index is the same as at first, unless the apply loop had been
overtaken by a snapshot. -/
theorem committed_entries_get_applied (run : SystemReachable dep StorageSucceeds sys) (hid : id ∈ dep.members.ids)
    (hcapacity : 0 < capacity) :
    InevitableWithin (SystemStep dep (Applying id capacity))
      (fun sys' => sys'.CaughtUp id ∧ (¬(sys.cluster.servers id).Overtaken →
        (sys'.cluster.servers id).node.commitIndex = (sys.cluster.servers id).node.commitIndex))
      (sys.process id).work sys := by
  refine InevitableWithin.of_rank (r := fun sys => (sys.process id).work)
    (P := fun sys' => SystemReachable dep StorageSucceeds sys' ∧ (¬(sys.cluster.servers id).Overtaken →
      ¬(sys'.cluster.servers id).Overtaken ∧
        (sys'.cluster.servers id).node.commitIndex = (sys.cluster.servers id).node.commitIndex)) ?_ ?_
    ⟨run, fun h => ⟨h, rfl⟩⟩
  · rintro s ⟨hs, hsame⟩ hgoal
    refine System.exists_applying hs hid hcapacity fun hcaught => hgoal ⟨hcaught, fun h => (hsame h).2⟩
  · rintro s s' ⟨hs, hsame⟩ _ ⟨act, happlying, hstep⟩
    obtain ⟨hwork, hkept⟩ := System.Turn.applying_work hs hid (.of_step hstep) happlying
    refine ⟨⟨.next hs ⟨act, storageSucceeds_of_applying happlying, hstep⟩, fun h => ?_⟩, hwork⟩
    obtain ⟨hover, hcommit⟩ := hsame h
    obtain ⟨hover', hcommit'⟩ := hkept hover
    exact ⟨hover', hcommit'.trans hcommit⟩

/-- Node `a` has committed a command that its service has not applied. Over the channel that the processes are built
with, the service is bound to apply it and to take its snapshot within eight steps. -/
theorem committed_entries_get_applied_at_leader :
    ∃ sys, SystemReachable threeProcesses StorageSucceeds sys ∧ "a" ∈ threeProcesses.members.ids ∧ 0 < 256 ∧
      (sys.services "a").lastAppliedIndex = 0 ∧ (sys.cluster.servers "a").node.commitIndex = 1 ∧
      InevitableWithin (SystemStep threeProcesses (Applying "a" 256))
        (fun sys' => sys'.CaughtUp "a" ∧ (¬(sys.cluster.servers "a").Overtaken →
          (sys'.cluster.servers "a").node.commitIndex = (sys.cluster.servers "a").node.commitIndex)) 8 sys := by
  have hrun : (execute StorageSucceeds (System.step threeProcesses) (System.first threeProcesses) putCommitted).map
      (fun sys => ((sys.services "a").lastAppliedIndex, (sys.cluster.servers "a").node.commitIndex,
        (sys.process "a").work)) = some (0, 1, 8) := by
    decide +kernel
  obtain ⟨sys, hsys, hfacts⟩ := exists_systemReachable_of_execute hrun
  simp only [Prod.mk.injEq] at hfacts
  obtain ⟨hindex, hcommit, hwork⟩ := hfacts
  have hid : "a" ∈ threeProcesses.members.ids := by decide
  have hcapacity : 0 < 256 := by decide
  have hbound := committed_entries_get_applied hsys hid hcapacity
  rw [hwork] at hbound
  exact ⟨sys, hsys, hid, hcapacity, hindex, hcommit, hbound⟩

end ConsensusLab.Service
