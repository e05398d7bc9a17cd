import ConsensusLab.Foundation.Histories
import ConsensusLab.Raft.ApplyOrder

/-!
# What a process puts on its apply channel

Between two starts of a process the messages on `applyCh` leave no gap and repeat nothing:
commands come one index after another, and a snapshot continues at or behind what came
before it. This holds for every node by itself, whatever it is sent, whichever storage
calls fail and whenever it is compacted. An entry that the loop cannot read any more
brings the process down instead of being skipped.
-/

namespace ConsensusLab.Raft

open Foundation

/-- What the state machine sees of its process. -/
inductive Sight
  | started
  | delivered (msg : ApplyMsg)
  deriving DecidableEq, Repr

/-- What a step shows to the state machine. A process that is restarted or lost begins anew. -/
def sightsOf (input : Input) (effects : Effects) : List Sight :=
  if input = .restart ∨ effects.lost ≠ none then [.started] else effects.delivered.toList.map .delivered

/-- A step of a server with what its state machine sees of it. -/
def Server.driveDelivering (sv : Server) (drive : Drive) : Option (Server × List Sight) :=
  (sv.step drive.fresh drive.fates drive.input).map fun (after, effects) => (after, sightsOf drive.input effects)

/-- The index up to which the state machine has come, from what it has seen, latest first. -/
def reachedBy : List Sight → Int
  | [] | .started :: _ => 0
  | .delivered msg :: _ => msg.index

/-- Every message continues where the one before it has led, and a started process begins with nothing. -/
def Gapless : List Sight → Prop
  | [] => True
  | .started :: past => Gapless past
  | .delivered msg :: past => msg.Continues (reachedBy past) ∧ Gapless past

/-- A new process whose stored snapshot, if there is one, has no negative index. -/
def Server.IsFresh (sv : Server) : Prop :=
  ∃ id peers disk, sv = Server.boot id peers disk ∧ ∀ s, disk.snapshot = some s → 0 ≤ s.lastIncludedIndex

/-- The log of a process does not begin at a negative index, in memory or on disk. -/
structure Server.Nonnegative (sv : Server) : Prop where
  node : 0 ≤ sv.node.snapshotIndex
  stored : ∀ s, sv.disk.snapshot = some s → 0 ≤ s.lastIncludedIndex

/-- The apply loop stands where its state machine has come. -/
structure Server.InOrder (sv : Server) (past : List Sight) : Prop where
  nonneg : sv.Nonnegative
  held : sv.SnapshotsHeld
  delivers : sv.node.Delivers (reachedBy past) sv.applier
  gapless : Gapless past

variable {n : Node} {d : PersistentState} {input : Input} {sv : Server} {result : Server × Effects}

/-- The start of a log only moves forward. -/
theorem LogEvent.Arises.start {ev : LogEvent} (h : ev.Arises n input) :
    n.snapshotIndex ≤ (ev.node n).snapshotIndex := by
  cases h with
  | none | append | truncate | replace | propose => exact Int.le_refl _
  | install stored hdegraded hterm hindex => exact hindex
  | compact stored hentry => exact Int.le_of_lt (Node.entryAt_eq_some hentry).1

/-- A snapshot that is left to the apply loop is the new start of the log, or was left to it before. -/
theorem LogEvent.Arises.pending {ev : LogEvent} (h : ev.Arises n input) {s : Snapshot}
    (hs : (ev.node n).pendingSnapshot = some s) :
    n.pendingSnapshot = some s ∨ s.lastIncludedIndex = (ev.node n).snapshotIndex := by
  cases h with
  | none | append | truncate | replace | propose | compact => exact Or.inl hs
  | @install req =>
    simp only [LogEvent.node, Node.adoptSnapshot] at hs
    split at hs
    · cases hs
      exact Or.inr rfl
    · exact Or.inl hs

/-- A snapshot on disk is the new start of the log, or was on disk before. -/
theorem LogEvent.Arises.stored {ev : LogEvent} (h : ev.Arises n input) {s : Snapshot}
    (hs : (ev.disk n d).snapshot = some s) :
    d.snapshot = some s ∨ s.lastIncludedIndex = (ev.node n).snapshotIndex := by
  cases h with
  | none | append | truncate | replace | propose => exact Or.inl hs
  | install stored | compact stored =>
    cases stored <;> cases hs <;> exact Or.inr rfl

/-- Whatever a section leaves on disk has no negative index. -/
theorem LogEvent.Arises.stored_nonneg {ev : LogEvent} (h : ev.Arises n input) (hnode : 0 ≤ n.snapshotIndex)
    (hdisk : ∀ s, d.snapshot = some s → 0 ≤ s.lastIncludedIndex) {s : Snapshot}
    (hs : (ev.disk n d).snapshot = some s) : 0 ≤ s.lastIncludedIndex := by
  rcases h.stored hs with hold | hnew
  · exact hdisk s hold
  · rw [hnew]
    exact Int.le_trans hnode h.start

namespace Server

/-- A process starts with the index of its stored snapshot. -/
theorem Nonnegative.boot (id : String) (peers : List String) (h : ∀ s, d.snapshot = some s → 0 ≤ s.lastIncludedIndex) :
    (Server.boot id peers d).Nonnegative := by
  refine ⟨?_, h⟩
  have hindex : (Server.boot id peers d).node.snapshotIndex = d.snapshot.elim 0 Snapshot.lastIncludedIndex :=
    newNode_snapshotIndex id peers d
  rw [hindex]
  cases hsnap : d.snapshot with
  | none => exact Int.le_refl 0
  | some s => exact h s hsnap

/-- A process starts with the stored snapshot to deliver. -/
theorem SnapshotsHeld.boot (id : String) (peers : List String) (d : PersistentState) :
    (Server.boot id peers d).SnapshotsHeld := by
  refine ⟨fun s hs => ?_, fun s hs => by cases hs⟩
  have hindex : (Server.boot id peers d).node.snapshotIndex = d.snapshot.elim 0 Snapshot.lastIncludedIndex :=
    newNode_snapshotIndex id peers d
  have hpending : (Server.boot id peers d).node.pendingSnapshot = d.snapshot := newNode_pendingSnapshot id peers d
  rw [hindex, ← hpending, hs]
  exact Int.le_refl _

/-- No step makes an index negative. -/
theorem LogMove.nonnegative (hmove : sv.LogMove input result) (h : sv.Nonnegative) : result.1.Nonnegative := by
  cases hmove with
  | leads hleads =>
    obtain ⟨ev, harises, hnode, hdisk⟩ := hleads
    simp only [Node.holding, PersistentState.files, Prod.mk.injEq] at hnode hdisk
    refine ⟨?_, fun s hs => harises.stored_nonneg h.node h.stored (hdisk.2.2.symm.trans hs)⟩
    rw [hnode.1]
    exact Int.le_trans h.node harises.start
  | lost hleaves =>
    obtain ⟨ev, harises, hdisk⟩ := hleaves
    simp only [PersistentState.files, Prod.mk.injEq] at hdisk
    exact .boot _ _ fun s hs => harises.stored_nonneg h.node h.stored (hdisk.2.2.symm.trans hs)
  | wakeApply | drain | sendSnapshot | recordSnapshot | park | pickEntry | sendEntry => exact ⟨h.node, h.stored⟩

/-- The snapshots of a process start no later than the log does. -/
theorem LogMove.snapshotsHeld (hmove : sv.LogMove input result) (h : sv.SnapshotsHeld) : result.1.SnapshotsHeld := by
  cases hmove with
  | leads hleads happlier =>
    obtain ⟨ev, harises, hnode, _⟩ := hleads
    simp only [Node.holding, Prod.mk.injEq] at hnode
    have hstart := harises.start
    refine ⟨fun s hs => ?_, fun s hs => ?_⟩
    · rw [hnode.1]
      rcases harises.pending (hnode.2.2.2.2.1.symm.trans hs) with hold | hnew
      · exact Int.le_trans (h.pending s hold) hstart
      · exact Int.le_of_eq hnew
    · rw [hnode.1]
      exact Int.le_trans (h.applier s (happlier ▸ hs)) hstart
  | lost => exact .boot ..
  | wakeApply | park | pickEntry | sendEntry => exact ⟨h.pending, fun s hs => by cases hs⟩
  | drain =>
    refine ⟨(fun s hs => by cases hs), fun s hs => ?_⟩
    simp only [NodeProcess.stepDrain, Node.takePendingSnapshot] at hs ⊢
    cases hpending : sv.node.pendingSnapshot with
    | none =>
      rw [hpending] at hs
      cases hs
    | some pending =>
      rw [hpending] at hs
      exact h.pending s (hpending.trans hs)
  | sendSnapshot happlier =>
    refine ⟨h.pending, fun s hs => h.applier s ?_⟩
    rw [happlier]
    exact hs
  | recordSnapshot => exact ⟨h.pending, fun s hs => by cases hs⟩

/-- A process that has just been started is in order, whatever its state machine has seen before. -/
theorem InOrder.boot (id : String) (peers : List String) (h : ∀ s, d.snapshot = some s → 0 ≤ s.lastIncludedIndex)
    {past : List Sight} (hreached : reachedBy past = 0) (hgapless : Gapless past) :
    (Server.boot id peers d).InOrder past where
  nonneg := .boot id peers h
  held := .boot id peers d
  delivers := by
    rw [hreached]
    exact Node.delivers_boot id peers d h
  gapless := hgapless

/-- Every step continues what the state machine has seen. -/
theorem InOrder.step {past : List Sight} (h : sv.InOrder past) {fresh : ℕ} {fates : List Fate}
    (hmove : sv.Move fresh fates input result) : result.1.InOrder (sightsOf input result.2 ++ past) := by
  have hnonneg := hmove.logMove.nonnegative h.nonneg
  by_cases hover : input = .restart ∨ result.2.lost ≠ none
  · obtain ⟨disk, hboot⟩ := hmove.rebooted hover
    have hstored := hnonneg.stored
    rw [sightsOf, if_pos hover]
    rw [hboot] at hstored ⊢
    exact .boot _ _ hstored rfl h.gapless
  · obtain ⟨hinput, hkept⟩ := not_or.mp hover
    obtain ⟨hcontinues, hdelivers⟩ :=
      hmove.logMove.delivers hinput (Classical.not_not.mp hkept) h.delivers h.held
    have hheld := hmove.logMove.snapshotsHeld h.held
    rw [sightsOf, if_neg hover]
    cases hmsg : result.2.delivered with
    | none =>
      simp only [Effects.reach, hmsg] at hdelivers
      exact ⟨hnonneg, hheld, hdelivers, h.gapless⟩
    | some msg =>
      simp only [Effects.reach, hmsg] at hdelivers
      exact ⟨hnonneg, hheld, hdelivers, (hcontinues msg hmsg).1, h.gapless⟩

end Server

/-- **Deliveries are gapless.** In every run of a server from stored state whose snapshot has no negative index,
whatever reaches it, whichever storage calls fail and whenever it crashes: between two starts, each command on the
apply channel has the index right behind the message before it, beginning with index 1, and each snapshot an index
that is not before it. -/
theorem deliveries_are_gapless {h : History Server Sight}
    (run : HistoryReachable Server.IsFresh (fun _ _ => True) Server.driveDelivering h) : Gapless h.past := by
  have hordered : h.state.InOrder h.past := by
    refine HistoryReachable.invariant (P := Server.InOrder) ?_ ?_ run
    · rintro sv ⟨id, peers, disk, rfl, hstored⟩
      exact .boot id peers hstored rfl trivial
    · rintro sv past drive sv' seen hordered _ hobserved
      obtain ⟨⟨after, effects⟩, hstep, hshown⟩ := Option.map_eq_some_iff.mp hobserved
      cases hshown
      exact hordered.step (.of_step hstep)
  exact hordered.gapless

/-- The first entry is delivered, a snapshot up to index 5 comes before the next one is read, and the loop panics. The
new process delivers the snapshot and then entry 6. -/
def overtakenDelivery : List Drive :=
  [entriesOf 0 0 [commandEntry 7] 1, .wakeApply, .drain, .pickEntry, .sendEntry, snapshotOf 5, .pickEntry,
    .wakeApply, .drain, .sendSnapshot, .recordSnapshot, .drain, entriesOf 5 1 [commandEntry 8] 6, .pickEntry,
    .sendEntry].map .of

/-- The messages before and after a panic. -/
theorem deliveries_are_gapless_around_panic :
    ∃ h : History Server Sight, HistoryReachable Server.IsFresh (fun _ _ => True) Server.driveDelivering h ∧
      h.past = [.delivered (.command [8] 6), .delivered (.snapshot [] 5), .started, .delivered (.command [7] 1)] ∧
      Gapless h.past := by
  have hrun : (execute (fun _ _ => True) (History.step Server.driveDelivering)
      { state := Server.boot "a" ["a", "b", "c"] .empty, past := [] } overtakenDelivery).map History.past =
        some [.delivered (.command [8] 6), .delivered (.snapshot [] 5), .started, .delivered (.command [7] 1)] := by
    decide +kernel
  have hfresh : Server.IsFresh (Server.boot "a" ["a", "b", "c"] .empty) :=
    ⟨"a", ["a", "b", "c"], .empty, rfl, fun s hs => by cases hs⟩
  obtain ⟨h, hh, hpast⟩ :
      ∃ h, HistoryReachable Server.IsFresh (fun _ _ => True) Server.driveDelivering h ∧ _ = _ :=
    exists_history_of_execute hfresh hrun
  exact ⟨h, hh, hpast, deliveries_are_gapless hh⟩

end ConsensusLab.Raft
