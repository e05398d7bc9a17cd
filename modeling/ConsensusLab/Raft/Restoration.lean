import ConsensusLab.Raft.Steps

/-!
# The commit position after a restart

`NewNode` combines three pieces of stored state: the hard state with its commit index,
the snapshot, and the log with a base of its own. Restoring a snapshot overwrites the
stored commit index with the snapshot's, so what was committed behind the snapshot is
forgotten although it is stored. Up to the position that is restored, the apply loop
replays the log by steps of its own.
-/

namespace ConsensusLab.Raft

open Foundation

/-- The index up to which the stored snapshot reaches, zero without a snapshot. -/
def PersistentState.snapshotIndex (ps : PersistentState) : Int :=
  ps.snapshot.elim 0 Snapshot.lastIncludedIndex

/-- The last index that the stored snapshot and the stored log cover. -/
def PersistentState.lastIndex (ps : PersistentState) : Int :=
  max ps.snapshotIndex (ps.logBase + ps.log.length)

/-- The position up to which the stored state is committed. -/
def PersistentState.committed (ps : PersistentState) : Int :=
  min (max ps.hard.commitIndex ps.snapshotIndex) ps.lastIndex

/-- The steps that the apply loop takes by itself. -/
def Input.ofApplyLoop : Input → Bool
  | wakeApply | drain | sendSnapshot | recordSnapshot | pickEntry | sendEntry => true
  | _ => false

/-- The messages that a process sends on `applyCh` along steps whose storage calls succeed. -/
def Server.delivers (sv : Server) : List Input → Option (Server × List ApplyMsg)
  | [] => some (sv, [])
  | input :: rest => do
    let (after, effects) ← sv.step 0 [] input
    let (final, messages) ← after.delivers rest
    pure (final, effects.delivered.toList ++ messages)

/-- The apply loop delivers every entry behind the snapshot and up to an index, by steps of its own. -/
def Server.Replays (sv : Server) (index : Int) : Prop :=
  ∃ inputs final messages, (∀ input ∈ inputs, input.ofApplyLoop = true) ∧
    sv.delivers inputs = some (final, messages) ∧
    ∀ i, sv.node.snapshotIndex < i → i ≤ index → ∃ entry, sv.node.entryAt i = some entry ∧
      .command entry.command i ∈ messages

/-- Restarting restores the committed position, and the apply loop replays up to it. -/
def Restores (id : String) (peers : List String) (ps : PersistentState) : Prop :=
  (newNode id peers ps).commitIndex = ps.committed ∧ (Server.boot id peers ps).Replays ps.committed

/-- One turn of the entry loop. -/
def entryTurn : List Input := [.pickEntry, .sendEntry]

/-- A turn of the entry loop is the apply loop's own. -/
theorem entryTurn_ofApplyLoop : ∀ input ∈ entryTurn, input.ofApplyLoop = true := by
  decide

section Replay

variable {sv : Server}

/-- Deliveries of two stretches of steps. -/
theorem Server.delivers_append {first second : List Input} {middle final : Server}
    {early late : List ApplyMsg} (hfirst : sv.delivers first = some (middle, early))
    (hsecond : middle.delivers second = some (final, late)) :
    sv.delivers (first ++ second) = some (final, early ++ late) := by
  induction first generalizing sv early with
  | nil =>
    cases hfirst
    exact hsecond
  | cons input rest ih =>
    obtain ⟨⟨after, effects⟩, hstep, htail⟩ := Option.bind_eq_some_iff.mp hfirst
    obtain ⟨⟨last, messages⟩, hrest, hpair⟩ := Option.bind_eq_some_iff.mp htail
    cases hpair
    simp [Server.delivers, hstep, ih hrest]

/-- The server after one turn of the entry loop. -/
def Server.turned (sv : Server) : Server :=
  { sv with node := { sv.node with lastApplied := sv.node.lastApplied + 1 } }

/-- One turn delivers the next committed entry. -/
theorem Server.delivers_entryTurn (happlier : sv.applier = .applying) {entry : LogEntry}
    (hcommit : sv.node.lastApplied < sv.node.commitIndex)
    (hentry : sv.node.entryAt (sv.node.lastApplied + 1) = some entry) :
    sv.delivers entryTurn = some (sv.turned, [.command entry.command (sv.node.lastApplied + 1)]) := by
  have hlast := (Node.entryAt_eq_some hentry).2.1
  have hpick : sv.node.nextToApply =
      pure ({ sv.node with lastApplied := sv.node.lastApplied + 1 },
        some (entry, sv.node.lastApplied + 1)) := by
    unfold Node.nextToApply
    rw [if_neg (by omega), if_neg (by omega), hentry]
  have hstep : sv.step 0 [] .pickEntry =
      some ({ sv.turned with applier := .sendingEntry entry (sv.node.lastApplied + 1) }, {}) := by
    simp only [Server.step, NodeProcess.plan, happlier, Option.map_some, Server.carryOut, NodeProcess.planPickEntry,
      Server.perform, hpick]
    rfl
  simp only [entryTurn, Server.delivers, hstep]
  simp [Server.step, NodeProcess.plan, Server.carryOut, Server.onDisk, Server.turned, ← happlier]

/-- As many turns as there are committed entries left deliver them all. -/
theorem Server.delivers_entryTurns (k : ℕ) (happlier : sv.applier = .applying)
    (hcommit : sv.node.lastApplied + k ≤ sv.node.commitIndex)
    (hlow : sv.node.snapshotIndex ≤ sv.node.lastApplied)
    (hhigh : sv.node.commitIndex ≤ sv.node.lastLogIndex) :
    ∃ final messages, sv.delivers (List.replicate k entryTurn).flatten = some (final, messages) ∧
      ∀ i, sv.node.lastApplied < i → i ≤ sv.node.lastApplied + k →
        ∃ entry, sv.node.entryAt i = some entry ∧ .command entry.command i ∈ messages := by
  induction k generalizing sv with
  | zero =>
    refine ⟨sv, [], rfl, ?_⟩
    intro i hi hk
    omega
  | succ k ih =>
    obtain ⟨entry, hentry⟩ := Node.exists_entryAt (n := sv.node) (i := sv.node.lastApplied + 1)
      (by omega) (by omega)
    have hturn := Server.delivers_entryTurn happlier (by omega) hentry
    have happlied : sv.turned.node.lastApplied = sv.node.lastApplied + 1 := rfl
    have hkept (i : Int) : sv.turned.node.entryAt i = sv.node.entryAt i := rfl
    have happlier' : sv.turned.applier = .applying := happlier
    obtain ⟨final, messages, hrest, hall⟩ := ih happlier'
      (by change sv.node.lastApplied + 1 + k ≤ sv.node.commitIndex; omega)
      (by change sv.node.snapshotIndex ≤ sv.node.lastApplied + 1; omega) hhigh
    refine ⟨final, _, Server.delivers_append hturn hrest, ?_⟩
    intro i hi hk
    by_cases hnext : i = sv.node.lastApplied + 1
    · subst hnext
      exact ⟨entry, hentry, List.mem_append_left _ List.mem_cons_self⟩
    · obtain ⟨later, hlater, hmem⟩ := hall i (by omega) (by omega)
      exact ⟨later, hkept i ▸ hlater, List.mem_append_right _ hmem⟩

end Replay

variable (id : String) (peers : List String) (ps : PersistentState)

/-- A new node's last index is the last that is stored. -/
theorem newNode_lastLogIndex (hbase : ps.logBase ≤ ps.snapshotIndex) :
    (newNode id peers ps).lastLogIndex = ps.lastIndex := by
  have hlen : ((newNode id peers ps).log.length : Int) =
      ps.log.length - min (max 0 (ps.snapshotIndex - ps.logBase)) ps.log.length := by
    rw [newNode_log, List.length_drop]
    unfold PersistentState.snapshotIndex
    omega
  have hindex : (newNode id peers ps).snapshotIndex = ps.snapshotIndex := newNode_snapshotIndex id peers ps
  rw [Node.lastLogIndex, hlen, hindex, PersistentState.lastIndex]
  omega

/-- The steps by which a new process delivers its snapshot, if it has one, and enters the entry loop. -/
def bootInputs : Option Snapshot → List Input
  | none => [.wakeApply, .drain]
  | some _ => [.wakeApply, .drain, .sendSnapshot, .recordSnapshot, .drain]

/-- These steps are the apply loop's own. -/
theorem bootInputs_ofApplyLoop (snapshot : Option Snapshot) :
    ∀ input ∈ bootInputs snapshot, input.ofApplyLoop = true := by
  cases snapshot <;> simp [bootInputs, Input.ofApplyLoop]

/-- A new process reaches its entry loop with everything behind the snapshot still to apply. -/
theorem boot_delivers : ∃ middle messages,
    (Server.boot id peers ps).delivers (bootInputs ps.snapshot) = some (middle, messages) ∧
      middle.applier = .applying ∧ middle.node.lastApplied = ps.snapshotIndex ∧
      middle.node.snapshotIndex = (newNode id peers ps).snapshotIndex ∧
      middle.node.log = (newNode id peers ps).log ∧
      middle.node.commitIndex = (newNode id peers ps).commitIndex := by
  have hpending := newNode_pendingSnapshot id peers ps
  have happlied : (newNode id peers ps).lastApplied = ps.snapshotIndex := newNode_lastApplied id peers ps
  cases hsnap : ps.snapshot with
  | none =>
    rw [hsnap] at hpending
    refine ⟨_, _, rfl, ?_, happlied, rfl, rfl, rfl⟩
    change (newNode id peers ps).pendingSnapshot.elim ApplyLoop.applying .sendingSnapshot = _
    rw [hpending]
    rfl
  | some snap =>
    rw [hsnap] at hpending
    have hindex : ps.snapshotIndex = snap.lastIncludedIndex := by
      rw [PersistentState.snapshotIndex, hsnap]
      rfl
    have hdrain : (Server.boot id peers ps).delivers [.wakeApply, .drain] =
        some ({ Server.boot id peers ps with
          node := { (Server.boot id peers ps).node with applyNotify := false, pendingSnapshot := none }
          applier := .sendingSnapshot snap }, []) := by
      change some (({ (Server.boot id peers ps) with
        node := { (Server.boot id peers ps).node with applyNotify := false, pendingSnapshot := none }
        applier := (newNode id peers ps).pendingSnapshot.elim ApplyLoop.applying .sendingSnapshot } :
          Server), ([] : List ApplyMsg)) = _
      rw [hpending]
      rfl
    refine ⟨_, _, Server.delivers_append hdrain rfl, rfl, ?_, rfl, rfl, rfl⟩
    change (if snap.lastIncludedIndex > (newNode id peers ps).lastApplied then snap.lastIncludedIndex
      else (newNode id peers ps).lastApplied) = _
    rw [happlied, hindex]
    exact ite_self _

/-- A new process replays its log up to the commit index it starts with. -/
theorem boot_replays (hbase : ps.logBase ≤ ps.snapshotIndex) :
    (Server.boot id peers ps).Replays (newNode id peers ps).commitIndex := by
  obtain ⟨middle, early, hboot, happlier, happlied, hindex, hlog, hcommit⟩ := boot_delivers id peers ps
  have hstart : (newNode id peers ps).snapshotIndex = ps.snapshotIndex := newNode_snapshotIndex id peers ps
  have hend : middle.node.lastLogIndex = (newNode id peers ps).lastLogIndex := by
    rw [Node.lastLogIndex, hindex, hlog]
    rfl
  have hrange : ps.snapshotIndex ≤ (newNode id peers ps).commitIndex ∧
      (newNode id peers ps).commitIndex ≤ (newNode id peers ps).lastLogIndex := by
    have hlast := newNode_lastLogIndex id peers ps hbase
    have hclamped := newNode_commitIndex id peers ps
    unfold PersistentState.lastIndex at hlast
    unfold PersistentState.snapshotIndex at hlast ⊢
    omega
  obtain ⟨final, late, hturns, hall⟩ := Server.delivers_entryTurns
    ((newNode id peers ps).commitIndex - ps.snapshotIndex).toNat happlier (by omega) (by omega) (by omega)
  refine ⟨_, final, _, ?_, Server.delivers_append hboot hturns, ?_⟩
  · intro input hinput
    rcases List.mem_append.mp hinput with hearly | hlate
    · exact bootInputs_ofApplyLoop ps.snapshot input hearly
    · obtain ⟨turn, hturn, hmem⟩ := List.mem_flatten.mp hlate
      rw [List.eq_of_mem_replicate hturn] at hmem
      exact entryTurn_ofApplyLoop input hmem
  · intro i hlow hhigh
    have hlow' : (newNode id peers ps).snapshotIndex < i := hlow
    obtain ⟨entry, hentry, hmem⟩ := hall i (by omega) (by omega)
    refine ⟨entry, ?_, List.mem_append_right _ hmem⟩
    rw [← hentry, Node.entryAt, Node.entryAt, hindex, hlog]
    rfl

/-- **What a restart keeps of the committed position.** A node restarted over a log whose base is not
behind its snapshot restores the committed position and replays up to it exactly if nothing behind
the snapshot was committed, or nothing is stored behind it, or there is no snapshot. -/
theorem restores_iff (hbase : ps.logBase ≤ ps.snapshotIndex) :
    Restores id peers ps ↔ ps.snapshot = none ∨ ps.hard.commitIndex ≤ ps.snapshotIndex ∨
      ps.logBase + ps.log.length ≤ ps.snapshotIndex := by
  have hclamped := newNode_commitIndex id peers ps
  rw [newNode_lastLogIndex id peers ps hbase] at hclamped
  have hposition : (newNode id peers ps).commitIndex = ps.committed ↔ ps.snapshot = none ∨
      ps.hard.commitIndex ≤ ps.snapshotIndex ∨ ps.logBase + ps.log.length ≤ ps.snapshotIndex := by
    rw [hclamped]
    unfold PersistentState.committed PersistentState.lastIndex PersistentState.snapshotIndex
    cases ps.snapshot with
    | none =>
      simp only [Option.elim_none, true_or, iff_true]
      omega
    | some snap =>
      simp only [Option.elim_some, reduceCtorEq, false_or]
      omega
  refine ⟨fun h => hposition.mp h.1, fun h => ?_⟩
  have hcommit := hposition.mpr h
  exact ⟨hcommit, hcommit ▸ boot_replays id peers ps hbase⟩

/-- A stored state with a snapshot of the first entry and the entry behind it, committed up to the given
index. -/
def storedBehindSnapshot (commitIndex : Int) : PersistentState where
  hard := { currentTerm := 1, votedFor := "a", commitIndex := commitIndex, config := { members := [] } }
  logBase := 0
  snapshot := some { lastIncludedIndex := 1, lastIncludedTerm := 1, config := { members := [] }, data := [] }
  log := [{ term := 1, type := entryCommand, command := [1] },
    { term := 1, type := entryCommand, command := [2] }]

/-- With nothing committed behind the snapshot the position is restored. -/
theorem restores_iff_at_snapshot : Restores "a" ["a", "b", "c"] (storedBehindSnapshot 1) :=
  (restores_iff "a" ["a", "b", "c"] (storedBehindSnapshot 1) (by decide)).mpr (Or.inr (Or.inl (by decide)))

/-- With the entry behind the snapshot committed, the node restarts at the snapshot's index. -/
theorem restart_forgets_commit :
    (storedBehindSnapshot 2).logBase ≤ (storedBehindSnapshot 2).snapshotIndex ∧
      (storedBehindSnapshot 2).committed = 2 ∧
      (newNode "a" ["a", "b", "c"] (storedBehindSnapshot 2)).commitIndex = 1 ∧
      ¬Restores "a" ["a", "b", "c"] (storedBehindSnapshot 2) := by
  have hposition : (storedBehindSnapshot 2).committed = 2 := by decide
  have hcommit : (newNode "a" ["a", "b", "c"] (storedBehindSnapshot 2)).commitIndex = 1 := by decide
  refine ⟨by decide, hposition, hcommit, ?_⟩
  intro hrestores
  have hsame := hrestores.1
  rw [hposition, hcommit] at hsame
  cases hsame

end ConsensusLab.Raft
