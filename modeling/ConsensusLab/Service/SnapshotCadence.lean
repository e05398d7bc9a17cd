import ConsensusLab.Service.Processes
import ConsensusLab.Raft.DeliveryOrder

/-!
# How much of an applied log is kept

A service counts the commands that it has applied since the last snapshot, has its node
compact the log when there are `SnapshotEvery` of them, and starts counting again when the
node has done so or when it has been sent a snapshot. The count therefore covers all that
the service has applied behind the start of its node's log, and what the node has applied
beyond is still in the channel or in the hand of the apply loop. This holds whatever fails
and whenever processes crash.
-/

namespace ConsensusLab.Raft

open Foundation

variable {sv : Server} {input : Input} {result : Server × Effects}

/-- The start of the log of a process that goes on only moves forward. -/
theorem Server.LogMove.start (hmove : sv.LogMove input result) (hinput : input ≠ .restart)
    (hkept : result.2.lost = none) : sv.node.snapshotIndex ≤ result.1.node.snapshotIndex := by
  cases hmove with
  | leads hleads =>
    obtain ⟨ev, harises, hnode, _⟩ := hleads
    simp only [Node.holding, Prod.mk.injEq] at hnode
    rw [hnode.1]
    exact harises.start
  | lost _ _ hover => exact absurd hover (not_or.mpr ⟨hinput, fun h => h hkept⟩)
  | wakeApply | drain | sendSnapshot | recordSnapshot | park | pickEntry | sendEntry => exact Int.le_refl _

/-- `Snapshot` returns no error only if the log starts behind the given index then, whatever storage does. -/
theorem Server.Move.compacted {fresh : ℕ} {fates : List Fate} {index : Int} {data : Bytes}
    (hmove : sv.Move fresh fates (.takeSnapshot index data) result) (hkept : result.2.lost = none)
    (hok : result.2.failed = none) : index ≤ result.1.node.snapshotIndex := by
  cases hmove with
  | takeSnapshot =>
    have hensures : (sv.node.takeSnapshot index data).Ensures True (fun _ => True)
        (fun r _ => r.2 = .ok () → index ≤ r.1.snapshotIndex) sv.disk :=
      Node.takeSnapshot_rule (fun hold _ => hold) (fun _ h => by cases h) fun _ _ =>
        ⟨fun _ => ⟨trivial, fun h => by cases h⟩, fun _ => ⟨trivial, fun _ => Int.le_refl _⟩, fun _ => Int.le_refl _⟩
    revert hkept hok
    refine Server.perform_rule (P := fun result => result.2.lost = none → result.2.failed = none →
      index ≤ result.1.node.snapshotIndex) hensures (Or.inl trivial) ?_ fun _ _ _ h => by cases h
    rintro ⟨node, _ | _⟩ disk hpost _ hok
    · cases hok
    · exact hpost rfl

/-- What a node has applied has been delivered, is in the hand of its apply loop or is before the start of its log. -/
theorem Server.SnapshotsHeld.applied_le {reached : Int} (h : sv.SnapshotsHeld)
    (hdelivers : sv.node.Delivers reached sv.applier) :
    sv.node.lastApplied ≤ sv.node.snapshotIndex ∨ sv.node.lastApplied ≤ reached + 1 := by
  have happlier := h.applier
  cases hphase : sv.applier with
  | parked | draining =>
    rw [hphase] at hdelivers
    cases hpending : sv.node.pendingSnapshot with
    | none =>
      have := hdelivers.1 hpending
      omega
    | some s =>
      have := (hdelivers.2 s hpending).2
      have := h.pending s hpending
      omega
  | sendingSnapshot s | sentSnapshot s =>
    rw [hphase] at hdelivers happlier
    have := happlier s rfl
    have := hdelivers.2.1
    omega
  | applying =>
    rw [hphase] at hdelivers
    have := hdelivers.1
    omega
  | sendingEntry =>
    rw [hphase] at hdelivers
    have := hdelivers.2.1
    omega

end ConsensusLab.Raft

namespace ConsensusLab.Service

open Foundation ConsensusLab.KV
open Raft (ApplyMsg Effects Input Server)

/-- The channel leads from what the service has applied to where the apply loop of the node stands. -/
structure Process.Ordered (p : Process) : Prop where
  nonneg : p.server.Nonnegative
  held : p.server.SnapshotsHeld
  stream : Successive p.service.lastAppliedIndex p.channel
  delivers : p.server.node.Delivers (streamEnd p.service.lastAppliedIndex p.channel) p.server.applier
  covered : ∀ data index, .snapshot data index ∈ p.channel → index ≤ p.server.node.snapshotIndex

variable {codec : Codec} {snapshotEvery : ℕ} {p p' : Process}

/-- A process that has just been started. -/
theorem Process.Ordered.boot {id : String} {peers : List String} {disk : Raft.PersistentState}
    (h : (Server.boot id peers disk).Nonnegative) :
    Process.Ordered { server := .boot id peers disk, service := newKV snapshotEvery, channel := [] } where
  nonneg := h
  held := .boot id peers disk
  stream := trivial
  delivers := Raft.Node.delivers_boot id peers disk h.stored
  covered _ _ hmem := absurd hmem List.not_mem_nil

/-- A step of the node that does not end the process. -/
theorem Process.Ordered.node (h : p.Ordered) {fresh : ℕ} {fates : List Fate} {input : Input} {after : Server}
    {effects : Effects} (hmove : p.server.Move fresh fates input (after, effects)) (hinput : input ≠ .restart)
    (hkept : effects.lost = none) :
    Process.Ordered { p with server := after, channel := p.channel ++ effects.delivered.toList } := by
  have hlog := hmove.logMove
  obtain ⟨hnext, hdelivers⟩ := hlog.delivers hinput hkept h.delivers h.held
  have hstart := hlog.start hinput hkept
  refine ⟨hlog.nonnegative h.nonneg, hlog.snapshotsHeld h.held, ?_, ?_, fun data index hmem => ?_⟩
  · cases hmsg : effects.delivered with
    | none => simpa using h.stream
    | some msg => exact successive_append.mpr ⟨h.stream, (hnext msg hmsg).1, trivial⟩
  · cases hmsg : effects.delivered with
    | none => simpa [Effects.reach, hmsg] using hdelivers
    | some msg =>
      simp only [Effects.reach, hmsg, Option.elim_some] at hdelivers
      simpa only [Option.toList_some, streamEnd_concat] using hdelivers
  · rcases List.mem_append.mp hmem with hold | hnew
    · exact Int.le_trans (h.covered data index hold) hstart
    · exact (hnext _ (Option.mem_toList.mp hnew)).2

/-- The events of a service that are its own handle no message. -/
theorem Event.ne_apply_of_isOwn {event : Event} (h : event.isOwn = true) (msg : ApplyMsg) : event ≠ .apply msg := by
  rintro rfl
  cases h

/-- The return of `consensus.Snapshot` does not move the service. -/
theorem KV.snapshotTaken_lastAppliedIndex (s : KV) (ok : Bool) :
    (s.snapshotTaken ok).lastAppliedIndex = s.lastAppliedIndex := by
  cases ok <;> rfl

/-- Every step keeps a process in order. -/
theorem Process.Ordered.move (h : p.Ordered) (hmove : Process.Move codec snapshotEvery p p') : p'.Ordered := by
  cases hmove with
  | node hmove hinput hkept => exact h.node hmove hinput hkept
  | restart hmove hover =>
    obtain ⟨disk, rfl⟩ := hmove.rebooted hover
    exact .boot (hmove.logMove.nonnegative h.nonneg)
  | @receive msg rest hchannel hhandler hreadable =>
    obtain ⟨hindex, _⟩ := p.service.handleApply_of_readable hreadable
    have hstream := h.stream
    have hdelivers := h.delivers
    rw [hchannel] at hstream hdelivers
    refine ⟨h.nonneg, h.held, ?_, ?_, fun data index hmem => h.covered data index ?_⟩
    · simp only [hindex]
      exact hstream.2
    · simp only [hindex]
      exact hdelivers
    · rw [hchannel]
      exact List.mem_cons_of_mem _ hmem
  | serve hown hmove =>
    have hindex := (hmove.keeps (Event.ne_apply_of_isOwn hown)).lastAppliedIndex
    simp only at hindex
    refine ⟨h.nonneg, h.held, ?_, ?_, h.covered⟩
    · simp only [hindex]
      exact h.stream
    · simp only [hindex]
      exact h.delivers
  | @snapshot _ _ after effects hhandler hmove hkept =>
    have hnode := h.node hmove (fun hinput => by cases hinput) hkept
    have hindex := p.service.snapshotTaken_lastAppliedIndex effects.failed.isNone
    refine ⟨hnode.nonneg, hnode.held, ?_, ?_, hnode.covered⟩
    · simp only [hindex]
      exact hnode.stream
    · simp only [hindex]
      exact hnode.delivers

/-- What the count of applied commands may be where the handler stands. -/
def Handler.Counts (snapshotEvery count : ℕ) : Handler → Prop
  | .receiving | .notifying false => count < snapshotEvery
  | .notifying true | .snapshotting => count = snapshotEvery
  | .stopped => count ≤ snapshotEvery

/-- The service counts what it has applied behind an index, and not beyond what it is told to. -/
structure KV.InCadence (snapshotEvery : ℕ) (start : Int) (s : KV) : Prop where
  every : s.snapshotEvery = snapshotEvery
  behind : s.lastAppliedIndex ≤ start + s.appliedSinceSnap
  counts : s.handler.Counts snapshotEvery s.appliedSinceSnap

variable {s : KV} {start : Int}

/-- A new service has counted nothing. -/
theorem KV.InCadence.new (hevery : 0 < snapshotEvery) (hstart : 0 ≤ start) :
    (newKV snapshotEvery).InCadence snapshotEvery start := by
  refine ⟨rfl, ?_, hevery⟩
  simpa [newKV] using hstart

/-- The log may start later. -/
theorem KV.InCadence.mono (h : s.InCadence snapshotEvery start) {start' : Int} (hle : start ≤ start') :
    s.InCadence snapshotEvery start' := by
  have hbehind := h.behind
  exact ⟨h.every, by omega, h.counts⟩

/-- The next command is counted, and leads to a snapshot when there are enough of them. -/
theorem KV.InCadence.handleApply (h : s.InCadence snapshotEvery start) (hevery : 0 < snapshotEvery)
    (hhandler : s.handler = .receiving) {msg : ApplyMsg} (hreadable : Readable codec msg)
    (hcontinues : msg.Continues s.lastAppliedIndex) (hcovered : ∀ data index, msg = .snapshot data index → index ≤ start) :
    (s.handleApply codec msg).InCadence snapshotEvery start := by
  have hcount : s.appliedSinceSnap < snapshotEvery := by
    have hcounts := h.counts
    rwa [hhandler] at hcounts
  have hbehind := h.behind
  cases msg with
  | command cmd index =>
    obtain ⟨decoded, hdecoded⟩ := Option.isSome_iff_exists.mp hreadable
    obtain rfl : index = s.lastAppliedIndex + 1 := hcontinues
    simp only [KV.handleApply, KV.handleCommand, Store.apply, hdecoded, Option.map_some]
    refine ⟨h.every, ?_, ?_⟩
    · simp only
      omega
    · simp only [h.every]
      by_cases hdue : snapshotEvery ≤ s.appliedSinceSnap + 1
      · simp only [hevery, hdue, decide_true, Bool.and_self, Handler.Counts]
        omega
      · simp only [hdue, decide_false, Bool.and_false, Handler.Counts]
        omega
  | snapshot data index =>
    obtain ⟨store, hstore⟩ := Option.isSome_iff_exists.mp hreadable
    simp only [KV.handleApply, KV.handleSnapshot, hstore]
    refine ⟨h.every, ?_, hevery⟩
    simpa using hcovered data index rfl

/-- Events of its own leave the count as it is. -/
theorem KV.InCadence.serve (h : s.InCadence snapshotEvery start) {event : Event} (hown : event.isOwn = true)
    {result : KV × Option Waiter} (hmove : KV.Move codec s event result) : result.1.InCadence snapshotEvery start := by
  have hcounts := h.counts
  cases hmove with
  | apply | snapshotTaken => cases hown
  | @notify snapshotDue hhandler =>
    refine ⟨h.every, h.behind, ?_⟩
    rw [hhandler] at hcounts
    cases snapshotDue with
    | true => exact hcounts
    | false => exact hcounts
  | wait | acknowledge | park | forget | wake | expire => exact ⟨h.every, h.behind, hcounts⟩

/-- After a snapshot the count starts again, if the log does start behind what has been applied. -/
theorem KV.InCadence.snapshotTaken (h : s.InCadence snapshotEvery start) (hevery : 0 < snapshotEvery)
    (hhandler : s.handler = .snapshotting) {ok : Bool} (hok : ok = true → s.lastAppliedIndex ≤ start) :
    (s.snapshotTaken ok).InCadence snapshotEvery start := by
  have hcounts := h.counts
  rw [hhandler] at hcounts
  cases ok with
  | true =>
    refine ⟨h.every, ?_, hevery⟩
    simpa [KV.snapshotTaken] using hok rfl
  | false => exact ⟨h.every, h.behind, Nat.le_of_eq hcounts⟩

/-- A process in order whose service is in cadence. -/
structure Process.InCadence (snapshotEvery : ℕ) (p : Process) : Prop extends p.Ordered where
  cadence : p.service.InCadence snapshotEvery p.server.node.snapshotIndex

/-- Every step keeps a service in cadence with its node. -/
theorem Process.InCadence.move (h : p.InCadence snapshotEvery) (hevery : 0 < snapshotEvery)
    (hmove : Process.Move codec snapshotEvery p p') : p'.InCadence snapshotEvery := by
  have hordered := h.toOrdered.move hmove
  refine ⟨hordered, ?_⟩
  cases hmove with
  | node hmove hinput hkept => exact h.cadence.mono (hmove.logMove.start hinput hkept)
  | restart => exact .new hevery hordered.nonneg.node
  | @receive msg rest hchannel hhandler hreadable =>
    have hstream := h.stream
    rw [hchannel] at hstream
    refine h.cadence.handleApply hevery hhandler hreadable hstream.1 fun data index hmsg => h.covered data index ?_
    rw [hchannel, hmsg]
    exact List.mem_cons_self
  | serve hown hmove => exact h.cadence.serve hown hmove
  | snapshot hhandler hmove hkept =>
    have hstart := hmove.logMove.start (fun hinput => by cases hinput) hkept
    refine (h.cadence.mono hstart).snapshotTaken hevery hhandler fun hok => ?_
    exact hmove.compacted hkept (Option.isNone_iff_eq_none.mp hok)

/-- Messages lead on by one index each, apart from snapshots, which lead to where some log starts. -/
theorem streamEnd_le {reached bound : Int} {channel : List ApplyMsg} (hstream : Successive reached channel)
    (hreached : reached ≤ bound) (hcovered : ∀ data index, .snapshot data index ∈ channel → index ≤ bound) :
    streamEnd reached channel ≤ bound + channel.length := by
  induction channel generalizing reached bound with
  | nil => simpa [streamEnd] using hreached
  | cons msg rest ih =>
    have hnext : msg.index ≤ bound + 1 := by
      cases msg with
      | command cmd index =>
        have : index = reached + 1 := hstream.1
        simp only [ApplyMsg.index]
        omega
      | snapshot data index =>
        have := hcovered data index List.mem_cons_self
        simp only [ApplyMsg.index]
        omega
    have hrest := ih hstream.2 hnext fun data index hmem => by
      have := hcovered data index (List.mem_cons_of_mem _ hmem)
      omega
    simp only [streamEnd, List.length_cons]
    omega

variable {dep : Deployment} {sys : System} {id : String}

/-- **Applied entries are compacted away.** In every run of a system, whatever fails and crashes, a service that is to
take a snapshot after every so many commands has never applied more than so many of them behind the start of its
node's log, and its node no more than that, the messages that wait in the channel and the one in its hand. -/
theorem applied_log_stays_short {allowed : System → SystemAction → Prop} (run : SystemReachable dep allowed sys)
    (hevery : 0 < dep.snapshotEvery id) :
    (sys.services id).lastAppliedIndex ≤ (sys.cluster.servers id).node.snapshotIndex + dep.snapshotEvery id ∧
      (sys.cluster.servers id).node.lastApplied ≤
        (sys.cluster.servers id).node.snapshotIndex + dep.snapshotEvery id + (sys.channels id).length + 1 := by
  have h : (sys.process id).InCadence (dep.snapshotEvery id) := by
    refine SystemReachable.process run (P := fun p => p.InCadence (dep.snapshotEvery id)) id ?_
      fun p p' h hmove => h.move hevery hmove
    have hnonneg : (Server.boot id dep.members.ids .empty).Nonnegative := .boot _ _ fun s hs => by cases hs
    exact ⟨.boot hnonneg, .new hevery hnonneg.node⟩
  have hcount : (sys.services id).appliedSinceSnap ≤ dep.snapshotEvery id := by
    have hcounts := h.cadence.counts
    revert hcounts
    simp only [System.process]
    cases (sys.services id).handler with
    | receiving => exact Nat.le_of_lt
    | notifying due =>
      cases due with
      | true => exact Nat.le_of_eq
      | false => exact Nat.le_of_lt
    | snapshotting => exact Nat.le_of_eq
    | stopped => exact fun hcounts => hcounts
  have hbehind := h.cadence.behind
  have hservice : (sys.services id).lastAppliedIndex ≤
      (sys.cluster.servers id).node.snapshotIndex + dep.snapshotEvery id := by
    simp only [System.process] at hbehind
    omega
  refine ⟨hservice, ?_⟩
  have hend := streamEnd_le h.stream hservice fun data index hmem => by
    have hcovered : index ≤ (sys.cluster.servers id).node.snapshotIndex := h.covered data index hmem
    omega
  rcases h.held.applied_le h.delivers with hle | hle
  · simp only [System.process] at hle
    omega
  · simp only [System.process] at hle hend
    omega

/-- The service of `a` has applied a command and not taken its snapshot yet. -/
theorem applied_log_stays_short_before_snapshot :
    ∃ sys, SystemReachable threeProcesses (fun _ _ => True) sys ∧ 0 < threeProcesses.snapshotEvery "a" ∧
      (sys.services "a").lastAppliedIndex = 1 ∧ (sys.cluster.servers "a").node.snapshotIndex = 0 ∧
      (sys.services "a").lastAppliedIndex ≤ (sys.cluster.servers "a").node.snapshotIndex + 1 := by
  have hrun : (execute (fun _ _ => True) (System.step threeProcesses) (System.first threeProcesses)
      (putCommitted ++ (Raft.applicationBy "a").map .raft ++ [.receive "a"])).map
      (fun sys => ((sys.services "a").lastAppliedIndex, (sys.cluster.servers "a").node.snapshotIndex)) =
        some (1, 0) := by
    decide +kernel
  obtain ⟨sys, hsys, hfacts⟩ := exists_systemReachable_of_execute hrun
  obtain ⟨hindex, hsnap⟩ := Prod.mk.inj hfacts
  have hevery : 0 < threeProcesses.snapshotEvery "a" := by decide
  exact ⟨sys, hsys, hevery, hindex, hsnap, (applied_log_stays_short hsys hevery).1⟩

end ConsensusLab.Service
