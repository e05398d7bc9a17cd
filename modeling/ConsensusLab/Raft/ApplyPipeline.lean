import ConsensusLab.Raft.ApplyOrder
import ConsensusLab.Raft.ApplyWakeUps

/-!
# The work of the apply loop

How much a node still has to do before its apply loop rests: each message that is in its
hand, each entry that is committed and not applied, the snapshot that waits, the token in
the channel and each goroutine that is about to leave one all count, priced such that what
a step leaves behind costs less than what it takes. A loop among the entries that an
installed snapshot has overtaken panics, and what a new process has to do then costs less
than the accident.

Everything between what has been applied and the start of the log is on its way: it is
covered by the snapshot that waits or by the one in the hand of the loop.
-/

namespace ConsensusLab.Raft

open Foundation

/-- The apply loop is among the entries. -/
def ApplyLoop.inEntries : ApplyLoop → Bool
  | applying | sendingEntry _ _ => true
  | parked | draining | sendingSnapshot _ | sentSnapshot _ => false

/-- The entry that the apply loop wants next is no longer in the log. -/
def Server.Overtaken (sv : Server) : Prop :=
  sv.applier.inEntries = true ∧ sv.node.lastApplied < sv.node.snapshotIndex

instance (sv : Server) : Decidable sv.Overtaken := inferInstanceAs (Decidable (_ ∧ _))

/-- What has not been applied and is not in the log is covered by a snapshot on its way. -/
def Server.Covered (sv : Server) : Prop :=
  sv.node.lastApplied < sv.node.snapshotIndex →
    (∃ s, sv.node.pendingSnapshot = some s ∧ sv.node.snapshotIndex ≤ s.lastIncludedIndex) ∨
      ∃ s, sv.applier.snapshot = some s ∧ sv.node.snapshotIndex ≤ s.lastIncludedIndex

/-- The steps of the apply loop, and those of the goroutines that are about to notify it. -/
def Input.applies : Input → Bool
  | wakeApply | drain | sendSnapshot | recordSnapshot | pickEntry | sendEntry | signal _ => true
  | _ => false

/-- The steps that send on `applyCh`. -/
def Input.delivers : Input → Bool
  | sendSnapshot | sendEntry => true
  | _ => false

/-- What is left to do for the apply loop where it stands. -/
def ApplyLoop.work : ApplyLoop → ℕ
  | parked => 0
  | applying => 1
  | draining => 2
  | sentSnapshot _ => 3
  | sendingEntry _ _ => 5
  | sendingSnapshot _ => 7

/-- A goroutine in this phase is about to notify. -/
def SendPhase.signals : SendPhase → Bool
  | signalling _ => true
  | waitingAppend _ | waitingInstall _ | finishing => false

/-- The number of goroutines that are about to notify. -/
def signallers (sends : List Send) : ℕ := sends.countP fun send => send.phase.signals

/-- What the node has for the apply loop: entries, a snapshot, a token. -/
def Node.backlog (n : Node) : ℕ :=
  5 * (n.commitIndex - n.lastApplied).toNat + (if n.pendingSnapshot.isSome then 6 else 0) +
    if n.applyNotify then 3 else 0

/-- What is left to do for the apply loop and those who wake it. -/
def Server.work (sv : Server) : ℕ :=
  sv.applier.work + sv.node.backlog + 4 * signallers sv.sends + if sv.Overtaken then 10 else 0

variable {sv : Server} {input : Input} {result : Server × Effects} {fresh : ℕ}

namespace Server

/-- A new process has applied all that is before the start of its log. -/
theorem Covered.boot (id : String) (peers : List String) (disk : PersistentState) :
    (Server.boot id peers disk).Covered := by
  intro hlt
  have hsame : (Server.boot id peers disk).node.lastApplied = (Server.boot id peers disk).node.snapshotIndex := by
    change (newNode id peers disk).lastApplied = (newNode id peers disk).snapshotIndex
    rw [newNode_lastApplied, newNode_snapshotIndex]
  omega

/-- What happens to the log leaves the rest on its way, if no more than what has been applied is compacted. -/
theorem Covered.event (h : sv.Covered) {n' : Node} {ev : LogEvent} (harises : ev.Arises sv.node input)
    (hnode : n'.holding = (ev.node sv.node).holding)
    (hcompact : ∀ index data, input = .takeSnapshot index data → index ≤ sv.node.lastApplied) :
    Covered { sv with node := n' } := by
  simp only [Node.holding, Prod.mk.injEq] at hnode
  obtain ⟨hindex, _, _, _, hpending, happlied⟩ := hnode
  simp only [Covered, hindex, hpending, happlied]
  cases harises with
  | none | append | truncate | replace | propose => exact h
  | @install req =>
    intro hlt
    exact Or.inl ⟨req.snapshot, if_pos hlt, Int.le_refl _⟩
  | @compact index data =>
    intro hlt
    have hle := hcompact index data rfl
    exact absurd hle (Int.not_le.mpr hlt)

/-- Every step keeps what is before the log on its way. -/
theorem LogMove.covered (hmove : sv.LogMove input result) (h : sv.Covered)
    (hcompact : ∀ index data, input = .takeSnapshot index data → index ≤ sv.node.lastApplied) :
    result.1.Covered := by
  cases hmove with
  | leads hleads happlier =>
    obtain ⟨ev, harises, hnode, _⟩ := hleads
    have hcovered := h.event harises hnode hcompact
    simp only [Covered] at hcovered ⊢
    rw [happlier]
    exact hcovered
  | lost => exact Covered.boot _ _ _
  | wakeApply happlier | park happlier | sendEntry happlier | sendSnapshot happlier =>
    intro hlt
    have hold := h hlt
    rw [happlier] at hold
    exact hold
  | drain happlier =>
    intro hlt
    have hold := h hlt
    rw [happlier] at hold
    rcases hold with ⟨s, hpending, hle⟩ | ⟨s, hhand, _⟩
    · refine Or.inr ⟨s, ?_, hle⟩
      simp only [NodeProcess.stepDrain, Server.onDisk, Node.takePendingSnapshot, hpending, Option.elim_some, ApplyLoop.snapshot]
    · cases hhand
  | @recordSnapshot snap happlier =>
    intro hlt
    have happlied : sv.node.lastApplied ≤ (sv.node.snapshotApplied snap).lastApplied ∧
        snap.lastIncludedIndex ≤ (sv.node.snapshotApplied snap).lastApplied := by
      simp only [Node.snapshotApplied]
      split <;> omega
    have hlt' : (sv.node.snapshotApplied snap).lastApplied < sv.node.snapshotIndex := hlt
    have hold := h (by omega)
    rw [happlier] at hold
    rcases hold with hpending | ⟨s, hhand, hle⟩
    · exact Or.inl hpending
    · cases hhand
      omega
  | pickEntry happlier _ hentry =>
    intro hlt
    have hlt' : sv.node.lastApplied + 1 < sv.node.snapshotIndex := hlt
    have := (Node.entryAt_eq_some hentry).1
    omega

/-- Ending one goroutine leaves no more of them that are about to notify. -/
theorem signallers_setPhase_le (sends : List Send) (handle : ℕ) :
    signallers (NodeProcess.setPhase sends handle .finishing) ≤ signallers sends := by
  simp only [signallers, NodeProcess.setPhase, List.countP_map]
  refine List.countP_mono_left fun send _ hsend => ?_
  by_cases hhandle : send.handle = handle
  · simp only [Function.comp, if_pos hhandle, SendPhase.signals] at hsend
    cases hsend
  · simpa only [Function.comp, if_neg hhandle] using hsend

/-- One goroutine that was about to notify no longer is. -/
theorem signallers_setPhase_lt {sends : List Send} {send : Send} (hsend : send ∈ sends)
    (hsignals : send.phase.signals = true) :
    signallers (NodeProcess.setPhase sends send.handle .finishing) < signallers sends := by
  induction sends with
  | nil => cases hsend
  | cons first rest ih =>
    have hcons : ∀ (s : Send) (l : List Send), signallers (s :: l) = signallers l + signallers [s] := by
      intro s l
      simp only [signallers, List.countP_cons, List.countP_nil, Nat.zero_add]
    have hmap : NodeProcess.setPhase (first :: rest) send.handle .finishing =
        (if first.handle = send.handle then { first with phase := .finishing } else first) ::
          NodeProcess.setPhase rest send.handle .finishing := rfl
    rw [hmap, hcons, hcons first]
    rcases List.mem_cons.mp hsend with rfl | hrest
    · have hone : signallers [send] = 1 := by simp [signallers, hsignals]
      have hnone : signallers [{ send with phase := SendPhase.finishing }] = 0 := rfl
      have := signallers_setPhase_le rest send.handle
      rw [if_pos rfl, hone, hnone]
      omega
    · have hhead := signallers_setPhase_le [first] send.handle
      simp only [NodeProcess.setPhase, List.map_cons, List.map_nil] at hhead
      have := ih hrest
      omega

/-- A loop that takes the next entry has not been overtaken, and one that cannot take it has. -/
theorem pickEntry_cases (sv : Server) :
    (sv.carryOut [] sv.planPickEntry = ({ sv with applier := .parked }, {})) ∨
      (∃ entry, sv.node.snapshotIndex ≤ sv.node.lastApplied ∧ sv.node.lastApplied < sv.node.commitIndex ∧
        sv.carryOut [] sv.planPickEntry =
          ({ sv with node := sv.node.picked, applier := .sendingEntry entry (sv.node.lastApplied + 1) }, {})) ∨
      sv.node.lastApplied < sv.node.snapshotIndex ∧
        ∃ b, sv.carryOut [] sv.planPickEntry = (sv.reboot sv.disk, { lost := some b }) := by
  have hpick : sv.node.nextToApply.Ensures False
      (fun disk => disk = sv.disk ∧ sv.node.lastApplied < sv.node.snapshotIndex)
      (fun r disk => disk = sv.disk ∧ (r = (sv.node, none) ∨
        ∃ entry, sv.node.snapshotIndex ≤ sv.node.lastApplied ∧ sv.node.lastApplied < sv.node.commitIndex ∧
          r = (sv.node.picked, some (entry, sv.node.lastApplied + 1)))) sv.disk := by
    refine Node.nextToApply_exact_rule (fun hcommit hlast hnone => ⟨rfl, ?_⟩) (fun _ => ⟨rfl, Or.inl rfl⟩)
      fun hcommit entry hentry => ⟨rfl, Or.inr ⟨entry, ?_, hcommit, rfl⟩⟩
    · by_contra hbehind
      obtain ⟨entry, hentry⟩ := Node.exists_entryAt (n := sv.node) (i := sv.node.lastApplied + 1) (by omega) (by omega)
      rw [hnone] at hentry
      cases hentry
    · have := (Node.entryAt_eq_some hentry).1
      omega
  refine Server.perform_rule (P := fun result => result = ({ sv with applier := .parked }, {}) ∨
    (∃ entry, sv.node.snapshotIndex ≤ sv.node.lastApplied ∧ sv.node.lastApplied < sv.node.commitIndex ∧
      result = ({ sv with node := sv.node.picked, applier := .sendingEntry entry (sv.node.lastApplied + 1) }, {})) ∨
    sv.node.lastApplied < sv.node.snapshotIndex ∧ ∃ b, result = (sv.reboot sv.disk, { lost := some b }))
    hpick (Or.inr rfl) ?_ ?_
  · rintro _ _ ⟨rfl, rfl | ⟨entry, hstart, hcommit, rfl⟩⟩
    · exact Or.inl rfl
    · exact Or.inr (Or.inl ⟨entry, hstart, hcommit, rfl⟩)
  · rintro b _ ⟨rfl, hbehind⟩
    exact Or.inr (Or.inr ⟨hbehind, b, rfl⟩)

/-- Applying entries takes them from the backlog. -/
theorem backlog_applied {n n' : Node} (hcommit : n'.commitIndex = n.commitIndex)
    (hpending : n'.pendingSnapshot = n.pendingSnapshot) (htoken : n'.applyNotify = n.applyNotify) :
    n'.backlog + 5 * (n.commitIndex - n.lastApplied).toNat =
      n.backlog + 5 * (n.commitIndex - n'.lastApplied).toNat := by
  simp only [Node.backlog, hcommit, hpending, htoken]
  omega

/-- Less work, as long as the loop is not overtaken by it. -/
theorem work_lt_of {sv' : Server} {k : ℕ} (hover : sv'.Overtaken → sv.Overtaken)
    (hless : sv'.applier.work + sv'.node.backlog + 4 * signallers sv'.sends + k <
      sv.applier.work + sv.node.backlog + 4 * signallers sv.sends) : sv'.work + k < sv.work := by
  simp only [work]
  by_cases hafter : sv'.Overtaken
  · rw [if_pos hafter, if_pos (hover hafter)]
    omega
  · rw [if_neg hafter]
    split <;> omega

/-- Outside the entries a loop is not overtaken. -/
theorem not_overtaken_of (h : sv.applier.inEntries = false) : ¬sv.Overtaken := by
  rintro ⟨hentries, _⟩
  rw [h] at hentries
  cases hentries

/-- A loop that has found no snapshot left is not overtaken. -/
theorem Covered.drained (h : sv.Covered) (happlier : sv.applier = .draining) (hpending : sv.node.pendingSnapshot = none) :
    sv.node.snapshotIndex ≤ sv.node.lastApplied := by
  by_contra hlt
  rcases h (by omega) with ⟨s, hs, _⟩ | ⟨s, hs, _⟩
  · rw [hpending] at hs
    cases hs
  · rw [happlier] at hs
    cases hs

/-- Steps of the apply loop that do not end the process leave less to do, and neither move the commit index nor let
the loop be overtaken. -/
theorem Move.applies_kept (hmove : sv.Move fresh [] input result) (happlies : input.applies = true)
    (hcovered : sv.Covered) (hkept : result.2.lost = none) :
    result.1.work + 3 * result.2.delivered.toList.length < sv.work ∧
      result.1.node.commitIndex = sv.node.commitIndex ∧ (result.1.Overtaken → sv.Overtaken) := by
  cases hmove with
  | @signal send signals hsend hphase =>
    have hfewer := signallers_setPhase_lt hsend (by rw [hphase]; rfl)
    obtain ⟨htoken, hsame⟩ : (sv.stepSignal send signals).1.node.backlog ≤ sv.node.backlog + 3 ∧
        ((sv.stepSignal send signals).1.node.commitIndex = sv.node.commitIndex ∧
          (sv.stepSignal send signals).1.node.lastApplied = sv.node.lastApplied ∧
          (sv.stepSignal send signals).1.node.snapshotIndex = sv.node.snapshotIndex) := by
      obtain ⟨apply, replicate⟩ := signals
      cases apply <;> cases replicate <;>
        simp [NodeProcess.stepSignal, Node.backlog, Node.notifyApply, Node.signalReplicate]
    have hover : (Server.onDisk sv.disk (sv.stepSignal send signals)).1.Overtaken → sv.Overtaken := by
      rintro ⟨hentries, hlt⟩
      exact ⟨hentries, (hsame.2.1.symm.trans_lt hlt).trans_eq hsame.2.2⟩
    refine ⟨work_lt_of hover ?_, hsame.1, hover⟩
    simp only [NodeProcess.stepSignal, Server.onDisk, Option.toList_none, List.length_nil] at htoken ⊢
    omega
  | wakeApply happlier htoken =>
    have hover : ¬Overtaken { sv with node := { sv.node with applyNotify := false }, applier := .draining } :=
      not_overtaken_of rfl
    refine ⟨work_lt_of (fun h => absurd h hover) ?_, rfl, fun h => absurd h hover⟩
    simp [happlier, htoken, ApplyLoop.work, Node.backlog]
    omega
  | drain happlier =>
    cases hpending : sv.node.pendingSnapshot with
    | none =>
      have hstart := hcovered.drained happlier hpending
      have hover : ¬(Server.onDisk sv.disk sv.stepDrain).1.Overtaken := fun h => absurd h.2 (Int.not_lt.mpr hstart)
      refine ⟨work_lt_of (fun h => absurd h hover) ?_, rfl, fun h => absurd h hover⟩
      simp [NodeProcess.stepDrain, Server.onDisk, Node.takePendingSnapshot, hpending, happlier, ApplyLoop.work, Node.backlog]
    | some snap =>
      have hover : ¬(Server.onDisk sv.disk sv.stepDrain).1.Overtaken := by
        refine not_overtaken_of ?_
        simp only [NodeProcess.stepDrain, Server.onDisk, Node.takePendingSnapshot, hpending, Option.elim_some, ApplyLoop.inEntries]
      refine ⟨work_lt_of (fun h => absurd h hover) ?_, rfl, fun h => absurd h hover⟩
      simp [NodeProcess.stepDrain, Server.onDisk, Node.takePendingSnapshot, hpending, happlier, ApplyLoop.work, Node.backlog]
      omega
  | @sendSnapshot snap happlier =>
    have hover : ¬Overtaken { sv with applier := .sentSnapshot snap } := not_overtaken_of rfl
    refine ⟨work_lt_of (fun h => absurd h hover) ?_, rfl, fun h => absurd h hover⟩
    simp [happlier, ApplyLoop.work]
    omega
  | @recordSnapshot snap happlier =>
    have hover : ¬Overtaken { sv with node := sv.node.snapshotApplied snap, applier := .draining } :=
      not_overtaken_of rfl
    refine ⟨work_lt_of (fun h => absurd h hover) ?_, rfl, fun h => absurd h hover⟩
    have happlied : sv.node.lastApplied ≤ (sv.node.snapshotApplied snap).lastApplied := by
      simp only [Node.snapshotApplied]
      split <;> omega
    have hbacklog := @backlog_applied sv.node (sv.node.snapshotApplied snap) rfl rfl rfl
    simp only [happlier, ApplyLoop.work, Option.toList_none, List.length_nil]
    omega
  | pickEntry happlier =>
    rcases sv.pickEntry_cases with hpark | ⟨entry, hstart, hcommit, hpick⟩ | ⟨_, b, hlost⟩
    · rw [hpark]
      have hover : ¬Overtaken { sv with applier := .parked } := not_overtaken_of rfl
      refine ⟨work_lt_of (fun h => absurd h hover) ?_, rfl, fun h => absurd h hover⟩
      simp [happlier, ApplyLoop.work]
    · rw [hpick]
      have hover : ¬Overtaken
          { sv with node := sv.node.picked, applier := .sendingEntry entry (sv.node.lastApplied + 1) } := by
        rintro ⟨_, hlt⟩
        have hlt' : sv.node.lastApplied + 1 < sv.node.snapshotIndex := hlt
        omega
      refine ⟨work_lt_of (fun h => absurd h hover) ?_, rfl, fun h => absurd h hover⟩
      have hbacklog := @backlog_applied sv.node sv.node.picked rfl rfl rfl
      have happlied : sv.node.picked.lastApplied = sv.node.lastApplied + 1 := rfl
      simp only [happlier, ApplyLoop.work, Option.toList_none, List.length_nil]
      omega
    · rw [hlost] at hkept
      cases hkept
  | @sendEntry entry index happlier =>
    have hover : Overtaken { sv with applier := .applying } → sv.Overtaken := by
      rintro ⟨_, hlt⟩
      exact ⟨by rw [happlier]; rfl, hlt⟩
    refine ⟨work_lt_of hover ?_, rfl, hover⟩
    simp [happlier, ApplyLoop.work]
    omega
  | _ => cases happlies

/-- Only a loop that was overtaken ends the process, by reading an entry that is not there. -/
theorem Move.applies_lost (hmove : sv.Move fresh [] input result) (happlies : input.applies = true)
    (hlost : result.2.lost ≠ none) : sv.Overtaken ∧ result.1 = sv.reboot sv.disk ∧ result.2.delivered = none := by
  cases hmove with
  | pickEntry happlier =>
    rcases sv.pickEntry_cases with hpark | ⟨entry, _, _, hpick⟩ | ⟨hbehind, b, hpanic⟩
    · rw [hpark] at hlost
      exact absurd rfl hlost
    · rw [hpick] at hlost
      exact absurd rfl hlost
    · rw [hpanic]
      exact ⟨⟨by rw [happlier]; rfl, hbehind⟩, rfl, rfl⟩
  | signal | wakeApply | drain | sendSnapshot | recordSnapshot | sendEntry => exact absurd rfl hlost
  | _ => cases happlies

/-- A process that is started with a snapshot has nothing else to apply at first. -/
theorem work_boot (id : String) (peers : List String) {disk : PersistentState} (hsnap : disk.snapshot ≠ none) :
    (Server.boot id peers disk).work < 10 := by
  obtain ⟨snap, hsnap⟩ := Option.ne_none_iff_exists'.mp hsnap
  have hcommit : (newNode id peers disk).commitIndex ≤ (newNode id peers disk).lastApplied := by
    rw [newNode_commitIndex, newNode_lastApplied, hsnap]
    simp
  have hover : ¬(Server.boot id peers disk).Overtaken := not_overtaken_of rfl
  have hbacklog : (newNode id peers disk).notifyApply.backlog = 9 := by
    have hgap : ((newNode id peers disk).commitIndex - (newNode id peers disk).lastApplied).toNat = 0 := by omega
    have hpending : (newNode id peers disk).pendingSnapshot.isSome = true := by
      rw [newNode_pendingSnapshot, hsnap]
      rfl
    simp only [Node.backlog, Node.notifyApply, hgap, hpending, if_true]
  rw [work, if_neg hover]
  change 0 + (newNode id peers disk).notifyApply.backlog + 4 * 0 + 0 < 10
  omega

/-- While storage works, compacting what has been applied leaves the apply loop no more to do. -/
theorem Move.takeSnapshot_work {index : Int} {data : Bytes} (hmove : sv.Move fresh [] (.takeSnapshot index data) result)
    (hindex : index ≤ sv.node.lastApplied) :
    result.1.work ≤ sv.work ∧ result.1.node.commitIndex = sv.node.commitIndex ∧
      (result.1.Overtaken → sv.Overtaken) ∧ result.2.delivered = none ∧ result.2.lost = none := by
  cases hmove with
  | takeSnapshot =>
    have hensures : (sv.node.takeSnapshot index data).Ensures False (fun _ => False)
        (fun r _ => r.1.backlog = sv.node.backlog ∧ r.1.commitIndex = sv.node.commitIndex ∧
          r.1.lastApplied = sv.node.lastApplied ∧
          (r.1.lastApplied < r.1.snapshotIndex → sv.node.lastApplied < sv.node.snapshotIndex)) sv.disk := by
      refine Node.takeSnapshot_rule (fun _ => ⟨rfl, rfl, rfl, id⟩) (fun _ => ⟨rfl, rfl, rfl, id⟩)
        fun entry _ => ⟨False.elim, False.elim, rfl, rfl, rfl, fun hlt => ?_⟩
      have hlt' : sv.node.lastApplied < index := hlt
      omega
    refine Server.perform_rule (P := fun result => result.1.work ≤ sv.work ∧
      result.1.node.commitIndex = sv.node.commitIndex ∧ (result.1.Overtaken → sv.Overtaken) ∧
      result.2.delivered = none ∧ result.2.lost = none) hensures (Or.inr rfl) ?_ fun _ _ h => h.elim
    rintro ⟨node, outcome⟩ disk ⟨hbacklog, hcommit, happlied, hover⟩
    have hover' : Overtaken { sv with node := node, disk := disk } → sv.Overtaken :=
      fun h => ⟨h.1, hover h.2⟩
    have hwork : work { sv with node := node, disk := disk } ≤ sv.work := by
      simp only [work]
      rw [hbacklog]
      by_cases hafter : Overtaken { sv with node := node, disk := disk }
      · rw [if_pos hafter, if_pos (hover' hafter)]
      · rw [if_neg hafter]
        omega
    cases outcome <;> exact ⟨hwork, hcommit, hover', rfl, rfl⟩

/-- Goroutines are found by their names. -/
theorem Alert.findSend (h : sv.Alert) {send : Send} (hsend : send ∈ sv.sends) : sv.findSend send.handle = some send := by
  have hsome : (sv.findSend send.handle).isSome := List.find?_isSome.mpr ⟨send, hsend, by simp⟩
  obtain ⟨found, hfound⟩ := Option.isSome_iff_exists.mp hsome
  obtain ⟨hmem, hhandle⟩ := NodeProcess.findSend_some hfound
  rw [hfound, List.inj_on_of_nodup_map h.distinct hmem hsend hhandle]

/-- While the apply loop does not sleep, it can take a step or somebody can wake it. -/
theorem Alert.exists_applies (halert : sv.Alert) (h : ¬sv.Asleep) (fresh : ℕ) :
    ∃ input, input.applies = true ∧ input.isLocal = true ∧ (sv.step fresh [] input).isSome := by
  cases happlier : sv.applier with
  | draining => exact ⟨.drain, rfl, rfl, by simp [step, NodeProcess.plan, happlier]⟩
  | sendingSnapshot => exact ⟨.sendSnapshot, rfl, rfl, by simp [step, NodeProcess.plan, happlier]⟩
  | sentSnapshot => exact ⟨.recordSnapshot, rfl, rfl, by simp [step, NodeProcess.plan, happlier]⟩
  | applying => exact ⟨.pickEntry, rfl, rfl, by simp [step, NodeProcess.plan, happlier]⟩
  | sendingEntry => exact ⟨.sendEntry, rfl, rfl, by simp [step, NodeProcess.plan, happlier]⟩
  | parked =>
    by_cases htoken : sv.node.applyNotify = true
    · exact ⟨.wakeApply, rfl, rfl, by simp [step, NodeProcess.plan, happlier, htoken]⟩
    · have hsignals : Signalling sv.sends := by
        by_contra hnone
        exact h ⟨happlier, by simpa using htoken, hnone⟩
      obtain ⟨send, hsend, hphase⟩ := hsignals
      refine ⟨.signal send.handle, rfl, rfl, ?_⟩
      simp only [step, NodeProcess.plan, halert.findSend hsend]
      cases hsend : send.phase with
      | signalling => rfl
      | waitingAppend | waitingInstall | finishing =>
        rw [hsend] at hphase
        cases hphase

end Server

/-- In a cluster everything before the logs is on its way. -/
theorem covered_of_undisturbed {m : Membership} {c : Cluster} (run : ClusterReachable m Undisturbed c) (id : String) :
    (c.servers id).Covered := by
  refine run.invariant (P := fun c => (c.servers id).Covered) ?_ ?_
  · rintro c rfl
    exact Server.Covered.boot _ _ _
  · rintro c c' _ h ⟨action, ⟨_, hcompacts⟩, hstep⟩
    obtain ⟨other, input, served, after, effects, hsource, hmove, rfl⟩ := Cluster.step_cases hstep
    by_cases heq : id = other
    · subst heq
      rw [Cluster.record_servers_self]
      refine hmove.logMove.covered h fun index data hinput => ?_
      cases hsource with
      | act =>
        subst hinput
        exact hcompacts (id, index) rfl
      | deliver => cases hinput
      | @answer _ _ reply => cases reply <;> cases hinput
    · rw [Cluster.record_servers_of_ne _ _ _ _ _ heq]
      exact h

end ConsensusLab.Raft
