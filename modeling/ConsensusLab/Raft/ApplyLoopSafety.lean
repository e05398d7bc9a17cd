import ConsensusLab.Raft.ServerRuns

/-!
# Which entries the apply loop reads

The apply loop drains pending snapshots once and then takes the mutex anew for every
entry. A snapshot installed in between moves the log's start past the next entry to
apply, and reading that entry panics. As long as snapshots that reach behind what has
been applied are installed outside the entry loop, the loop reads inside the log.
-/

namespace ConsensusLab.Raft

open Foundation

/-- The apply loop is behind its drain and has not left its entry loop. -/
def ApplyLoop.inEntryLoop : ApplyLoop → Bool
  | applying | sendingEntry _ _ => true
  | parked | draining | sendingSnapshot _ | sentSnapshot _ => false

/-- The entry loop evaluates `entryAtLocked(lastApplied+1)` when it next has the mutex. -/
def Server.Evaluates (sv : Server) : Prop :=
  sv.applier = .applying ∧ sv.node.lastApplied < sv.node.commitIndex ∧
    sv.node.lastApplied + 1 ≤ sv.node.lastLogIndex

instance (sv : Server) : Decidable sv.Evaluates :=
  inferInstanceAs (Decidable (_ ∧ _ ∧ _))

/-- The next index to apply is one that the log holds. -/
def Server.NextInLog (sv : Server) : Prop :=
  sv.node.snapshotIndex < sv.node.lastApplied + 1 ∧ sv.node.lastApplied + 1 ≤ sv.node.lastLogIndex

instance (sv : Server) : Decidable sv.NextInLog :=
  inferInstanceAs (Decidable (_ ∧ _))

/-- The snapshot that an input asks to install. -/
def Input.installs : Input → Option InstallSnapshotRequest
  | receive (.install req) => some req
  | _ => none

/-- The index up to which an input asks to compact. -/
def Input.compacts : Input → Option Int
  | takeSnapshot index _ => some index
  | _ => none

/-- Snapshots that reach behind what has been applied are installed outside the entry loop, and the
state machine compacts only what has been applied. -/
def Timely (sv : Server) (drive : Drive) : Prop :=
  (∀ req ∈ drive.input.installs, sv.node.degraded = false → sv.node.currentTerm ≤ req.term →
    sv.node.lastApplied < req.lastIncludedIndex → sv.applier.inEntryLoop = false) ∧
  ∀ index ∈ drive.input.compacts, index ≤ sv.node.lastApplied

instance (sv : Server) (drive : Drive) : Decidable (Timely sv drive) :=
  inferInstanceAs (Decidable (_ ∧ _))

/-- The start of the log is applied, or a snapshot that reaches it is on its way to the state machine
before the entry loop is entered again. -/
inductive Server.StartApplied (sv : Server) : Prop
  | applied (h : sv.node.snapshotIndex ≤ sv.node.lastApplied)
  | pending {snap : Snapshot} (hphase : sv.applier.inEntryLoop = false)
      (hpending : sv.node.pendingSnapshot = some snap) (h : sv.node.snapshotIndex ≤ snap.lastIncludedIndex)
  | sending {snap : Snapshot} (hphase : sv.applier = .sendingSnapshot snap ∨ sv.applier = .sentSnapshot snap)
      (h : sv.node.snapshotIndex ≤ snap.lastIncludedIndex)

namespace Server.StartApplied

variable {sv sv' : Server}

/-- Only four components of the server matter. -/
theorem keep (h : sv.StartApplied) (hindex : sv'.node.snapshotIndex = sv.node.snapshotIndex)
    (hpending : sv'.node.pendingSnapshot = sv.node.pendingSnapshot)
    (happlied : sv'.node.lastApplied = sv.node.lastApplied) (happlier : sv'.applier = sv.applier) :
    sv'.StartApplied := by
  cases h with
  | applied h => exact .applied (by rw [hindex, happlied]; exact h)
  | pending hphase hp h => exact .pending (happlier ▸ hphase) (hpending.trans hp) (hindex ▸ h)
  | sending hphase h => exact .sending (happlier ▸ hphase) (hindex ▸ h)

/-- In the entry loop the start of the log is applied. -/
theorem of_entryLoop (h : sv.StartApplied) (hphase : sv.applier.inEntryLoop = true) :
    sv.node.snapshotIndex ≤ sv.node.lastApplied := by
  cases h with
  | applied h => exact h
  | pending hout => rw [hphase] at hout; cases hout
  | sending hout =>
    rcases hout with hs | hs <;> rw [hs] at hphase <;> cases hphase

/-- A restarted node has applied what its snapshot covers. -/
theorem boot (id : String) (peers : List String) (disk : PersistentState) :
    (Server.boot id peers disk).StartApplied := by
  refine .applied ?_
  exact Int.le_of_eq ((newNode_snapshotIndex id peers disk).trans (newNode_lastApplied id peers disk).symm)

/-- Events of the log keep its start applied if they are timely. -/
theorem event (h : sv.StartApplied) {drive : Drive} (htimely : Timely sv drive) {ev : LogEvent}
    (harises : ev.Arises sv.node drive.input) (hnode : sv'.node.holding = (ev.node sv.node).holding)
    (happlier : sv'.applier = sv.applier) : sv'.StartApplied := by
  simp only [Node.holding, Prod.mk.injEq] at hnode
  obtain ⟨hindex, _, _, _, hpending, happlied⟩ := hnode
  obtain ⟨fresh, fates, input⟩ := drive
  cases harises with
  | none | append | truncate | replace | propose => exact h.keep hindex hpending happlied happlier
  | @install req stored hhealthy hterm _ =>
    by_cases hnew : sv.node.lastApplied < req.lastIncludedIndex
    · have hout := htimely.1 req rfl hhealthy hterm hnew
      exact .pending (by rw [happlier]; exact hout) (hpending.trans (if_pos hnew)) (Int.le_of_eq hindex)
    · refine .applied ?_
      rw [hindex, happlied]
      exact Int.not_lt.mp hnew
  | @compact index data entry stored hentry =>
    refine .applied ?_
    rw [hindex, happlied]
    exact htimely.2 index rfl

/-- Timely steps keep the start of the log applied. -/
theorem step (h : sv.StartApplied) {drive : Drive} (htimely : Timely sv drive) {result : Server × Effects}
    (hmove : sv.LogMove drive.input result) : result.1.StartApplied := by
  obtain ⟨fresh, fates, input⟩ := drive
  cases hmove with
  | leads hleads happlier _ =>
    obtain ⟨ev, harises, hnode, _⟩ := hleads
    exact h.event htimely harises hnode happlier
  | lost => exact boot ..
  | wakeApply happlier =>
    cases h with
    | applied h => exact .applied h
    | pending _ hp h => exact .pending rfl hp h
    | sending hphase => rw [happlier] at hphase; rcases hphase with hs | hs <;> cases hs
  | drain happlier =>
    cases h with
    | applied h => exact .applied h
    | @pending snap _ hp h =>
      have hphase : sv.stepDrain.1.applier = .sendingSnapshot snap := by
        simp only [NodeProcess.stepDrain, Node.takePendingSnapshot, hp, Option.elim_some]
      exact .sending (Or.inl hphase) h
    | sending hphase => rw [happlier] at hphase; rcases hphase with hs | hs <;> cases hs
  | @sendSnapshot snap happlier =>
    cases h with
    | applied h => exact .applied h
    | pending _ hp h => exact .pending rfl hp h
    | sending hphase h =>
      rw [happlier] at hphase
      rcases hphase with hs | hs <;> cases hs
      exact .sending (Or.inr rfl) h
  | @recordSnapshot snap happlier =>
    have hle : sv.node.lastApplied ≤ (sv.node.snapshotApplied snap).lastApplied ∧
        snap.lastIncludedIndex ≤ (sv.node.snapshotApplied snap).lastApplied := by
      simp only [Node.snapshotApplied]
      split <;> omega
    cases h with
    | applied h => exact .applied (Int.le_trans h hle.1)
    | pending _ hp h => exact .pending rfl hp h
    | sending hphase h =>
      rw [happlier] at hphase
      rcases hphase with hs | hs <;> cases hs
      exact .applied (Int.le_trans h hle.2)
  | park happlier => exact .applied (h.of_entryLoop (by rw [happlier]; rfl))
  | pickEntry happlier =>
    have hle := h.of_entryLoop (by rw [happlier]; rfl)
    refine .applied ?_
    change sv.node.snapshotIndex ≤ sv.node.lastApplied + 1
    omega
  | sendEntry happlier => exact .applied (h.of_entryLoop (by rw [happlier]; rfl))

end Server.StartApplied

/-- In timely runs the start of the log is applied, or on its way. -/
theorem startApplied_of_reachable {sv : Server} (run : ServerReachable Timely sv) : sv.StartApplied := by
  refine run.invariant ?_ ?_
  · rintro sv ⟨id, peers, disk, rfl⟩
    exact .boot id peers disk
  · rintro sv sv' _ h ⟨drive, htimely, hdrive⟩
    obtain ⟨result, hstep, rfl⟩ := Option.map_eq_some_iff.mp hdrive
    exact h.step htimely (Server.Move.of_step hstep).logMove

/-- **The apply loop reads inside the log.** In timely runs from any stored state, and with any faults
of storage, the entry that the loop reads next is one that the log holds. -/
theorem apply_loop_reads_inside {sv : Server} (run : ServerReachable Timely sv) (heval : sv.Evaluates) :
    sv.NextInLog := by
  have hle := (startApplied_of_reachable run).of_entryLoop (by rw [heval.1]; rfl)
  exact ⟨by omega, heval.2.2⟩

/-- A snapshot up to index 5 is installed while the loop is parked; the loop delivers it and then reads
entry 6. -/
theorem apply_loop_reads_inside_after_snapshot :
    ∃ sv, ServerReachable Timely sv ∧ sv.Evaluates ∧ sv.node.snapshotIndex = 5 ∧ sv.NextInLog := by
  have hrun : (execute Timely Server.drive (Server.boot "a" ["a", "b", "c"] .empty) ([snapshotOf 5, .wakeApply,
      .drain, .sendSnapshot, .recordSnapshot, .drain, entriesOf 5 1 [commandEntry 7] 6].map .of)).map
      (fun sv => (decide sv.Evaluates, sv.node.snapshotIndex)) = some (true, 5) := by
    decide +kernel
  obtain ⟨sv, hsv, hfacts⟩ := exists_serverReachable_of_execute hrun
  obtain ⟨heval, hindex⟩ := Prod.mk.inj hfacts
  have heval' := of_decide_eq_true heval
  exact ⟨sv, hsv, heval', hindex, apply_loop_reads_inside hsv heval'⟩

/-- A snapshot up to index 5 is installed between the drain and the entry loop's first read: the loop
then reads at index 1, which the snapshot hides, and the process panics. -/
theorem apply_loop_reads_outside :
    ∃ sv, ServerReachable (fun _ _ => True) sv ∧ sv.Evaluates ∧ sv.node.snapshotIndex = 5 ∧
      sv.node.lastApplied = 0 ∧ ¬sv.NextInLog ∧
      (sv.step 0 [] .pickEntry).map (fun result => result.2.lost) = some (some true) := by
  have hrun : (execute (fun _ _ => True) Server.drive (Server.boot "a" ["a", "b", "c"] .empty)
      ([entriesOf 0 0 [commandEntry 7] 1, .wakeApply, .drain, snapshotOf 5].map .of)).map
      (fun sv => (decide sv.Evaluates, sv.node.snapshotIndex, sv.node.lastApplied, decide sv.NextInLog,
        (sv.step 0 [] .pickEntry).map fun result => result.2.lost)) =
      some (true, 5, 0, false, some (some true)) := by
    decide +kernel
  obtain ⟨sv, hsv, hfacts⟩ := exists_serverReachable_of_execute hrun
  simp only [Prod.mk.injEq, decide_eq_true_eq, decide_eq_false_iff_not] at hfacts
  exact ⟨sv, hsv, hfacts⟩

end ConsensusLab.Raft
