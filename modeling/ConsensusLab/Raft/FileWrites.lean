import ConsensusLab.Foundation.Directory
import ConsensusLab.Raft.JSONStorage

/-!
# The writes of the file-backed storage

`JSONStorage` writes each file as a whole: a temporary file is written, synced and renamed,
and then the directory is synced. The calls below are those of `writeJSONAtomically`, where
any of them can fail or be the last of the process.

Whatever happens, the files hold the old state or the new one. But a call that returns an
error has not always left the old one: when the directory cannot be opened or synced, the
file has its new content already, and the caller takes back in memory what `Load` will see.
-/

namespace ConsensusLab.Raft

open Foundation

/-- The files of a `JSONStorage`. -/
inductive FileName
  | hardState
  | log
  | snapshot
  deriving DecidableEq, Repr

/-- What is written to each file. -/
abbrev Document : FileName → Type
  | .hardState => HardState
  | .log => LogDocument
  | .snapshot => Snapshot

/-- The directory of a `JSONStorage`. -/
abbrev Files := Directory Document

/-- A program that calls the file system. -/
abbrev FileProgram := StorageProgram (FileCall Document)

/-- Run a program on a directory. -/
abbrev FileProgram.run {A : Type} (p : FileProgram A) (fates : List Fate) (dir : Files) : Outcome A × Files :=
  p.exec FileCall.effect fates dir

/-- One call; the answer is whether it succeeded. -/
def fileCall (c : FileCall Document) : FileProgram Bool :=
  .call c .done

/-- `writeJSONAtomically` after the rename. -/
def syncParent : FileProgram Bool := do
  if ← fileCall .openDir then
    let synced ← fileCall .syncDir
    let _ ← fileCall .closeDir
    pure synced
  else
    pure false

/-- `writeJSONAtomically` once it has a temporary file. -/
def writeTemp (name : FileName) (tmp : ℕ) (v : Document name) : FileProgram Bool := do
  if ← fileCall (.write name tmp v) then
    if ← fileCall (.sync name tmp) then
      if ← fileCall (.close name tmp) then
        if ← fileCall (.rename name tmp) then
          syncParent
        else
          pure false
      else
        pure false
    else
      let _ ← fileCall (.close name tmp)
      pure false
  else
    let _ ← fileCall (.close name tmp)
    pure false

/-- `writeJSONAtomically`; the answer is whether it returned nil. `CreateTemp` chooses the temporary file, and
the encoding does not fail. -/
def writeJSONAtomically (name : FileName) (tmp : ℕ) (v : Document name) : FileProgram Bool := do
  if ← fileCall .mkdirAll then
    if ← fileCall (.createTemp name tmp) then
      let written ← writeTemp name tmp v
      -- the deferred `os.Remove`, whose error is dropped
      let _ ← fileCall (.remove name tmp)
      pure written
    else
      pure false
  else
    pure false

/-- `writeLog`. -/
def writeLog (tmp : ℕ) (base : Int) (entries : Slice LogEntry) : FileProgram Bool :=
  writeJSONAtomically .log tmp (.stored base entries)

/-- Read a file; `none` where only part of a document is found. -/
def readFile {D : Type} : Option (FileContent D) → Option (Option D)
  | none => some none
  | some content => content.doc.map some

namespace Files

/-- The documents in the directory. -/
def storage (dir : Files) : Option JSONStorage := do
  let hardState ← readFile (dir.files .hardState)
  let snapshot ← readFile (dir.files .snapshot)
  let log ← readFile (dir.files .log)
  pure { hardStateFile := hardState, logFile := log, snapshotFile := snapshot }

/-- `Load`. -/
def load (dir : Files) : Option PersistentState :=
  dir.storage.bind JSONStorage.load

/-- `loadLog`. -/
def loadLog (dir : Files) : Option (Int × Slice LogEntry) := do
  let log ← readFile (dir.files .log)
  JSONStorage.loadLog { JSONStorage.fresh with logFile := log }

end Files

/-- A call to the storage; `AppendLog` and `TruncateLog` read the log file before they write it. -/
def StorageOp.attempt (dir : Files) (tmp : ℕ) : StorageOp → FileProgram Bool
  | saveHardState state => writeJSONAtomically .hardState tmp state
  | appendLog entries =>
    if entries.elements = [] then pure true
    else match dir.loadLog with
      | none => pure false
      | some (base, existing) => writeLog tmp base (some (existing.elements ++ entries.elements))
  | truncateLog keepN =>
    match dir.loadLog with
    | none => pure false
    | some (base, existing) =>
      writeLog tmp base (existing.map (·.take (min (max 0 keepN) existing.elements.length).toNat))
  | setLog baseIndex entries => writeLog tmp baseIndex entries
  | saveSnapshot snap => writeJSONAtomically .snapshot tmp snap

/-- The steps of `writeJSONAtomically`. -/
inductive WriteStep
  | mkdirAll
  | createTemp
  | write
  | sync
  | close
  | rename
  | openDir
  | syncDir
  deriving DecidableEq, Repr

namespace WriteStep

/-- How many steps come before. -/
def position : WriteStep → ℕ
  | mkdirAll => 0
  | createTemp => 1
  | write => 2
  | sync => 3
  | close => 4
  | rename => 5
  | openDir => 6
  | syncDir => 7

/-- The steps behind the rename. -/
def afterRename : WriteStep → Bool
  | openDir | syncDir => true
  | mkdirAll | createTemp | write | sync | close | rename => false

/-- One step has this fate, and all others succeed. -/
def fates (step : WriteStep) (fate : Fate) : List Fate :=
  List.replicate step.position .succeeds ++ [fate]

end WriteStep

/-- What the caller sees when one step has this fate. -/
def writeOutcome : Fate → Outcome Bool
  | .succeeds => .returned true
  | .fails => .returned false
  | .crashes => .crashed

/-- The names when one step has this fate: the file has its new content once it is renamed. -/
def Files.written (dir : Files) (name : FileName) (v : Document name) (step : WriteStep) : Fate → Files
  | .succeeds => { dir.replace name { doc := some v, synced := true } with replaced := fun _ => [] }
  | .fails | .crashes => if step.afterRename then dir.replace name { doc := some v, synced := true } else dir

/-- A write in which one step has any fate. -/
theorem run_writeJSONAtomically (dir : Files) (name : FileName) (tmp : ℕ) (v : Document name) (step : WriteStep)
    (fate : Fate) :
    ∃ dir', (writeJSONAtomically name tmp v).run (step.fates fate) dir = (writeOutcome fate, dir') ∧
      (dir.written name v step fate).SameNames dir' := by
  cases step <;> cases fate <;> refine ⟨_, rfl, ?_, ?_⟩ <;>
    simp [FileCall.effect, Files.written, WriteStep.afterRename]

/-- A file of the storage with a new document. -/
def JSONStorage.put (s : JSONStorage) : (name : FileName) → Document name → JSONStorage
  | .hardState, state => { s with hardStateFile := some state }
  | .log, doc => { s with logFile := some doc }
  | .snapshot, snap => { s with snapshotFile := some snap }

namespace Files

variable {dir dir' : Files} {s : JSONStorage} {ps : PersistentState}

/-- The documents are those of the files. -/
theorem storage_eq_some : dir.storage = some s ↔ readFile (dir.files .hardState) = some s.hardStateFile ∧
    readFile (dir.files .snapshot) = some s.snapshotFile ∧ readFile (dir.files .log) = some s.logFile := by
  constructor
  · intro h
    simp only [storage, Option.bind_eq_bind, Option.bind_eq_some_iff] at h
    obtain ⟨hardState, hhard, snapshot, hsnapshot, log, hlog, heq⟩ := h
    cases heq
    exact ⟨hhard, hsnapshot, hlog⟩
  · rintro ⟨hhard, hsnapshot, hlog⟩
    simp only [storage, hhard, hsnapshot, hlog, Option.bind_eq_bind, Option.bind_some]
    rfl

/-- Only the names matter to what is read. -/
theorem storage_congr (h : dir'.files = dir.files) : dir'.storage = dir.storage := by
  simp only [storage, h]

/-- A replaced file has the new document. -/
theorem storage_replace (h : dir.storage = some s) (name : FileName) (v : Document name) (synced : Bool) :
    Files.storage (dir.replace name { doc := some v, synced := synced }) = some (s.put name v) := by
  rw [storage_eq_some] at h ⊢
  obtain ⟨hhard, hsnapshot, hlog⟩ := h
  cases name with
  | hardState => exact ⟨rfl, hsnapshot, hlog⟩
  | log => exact ⟨hhard, hsnapshot, rfl⟩
  | snapshot => exact ⟨hhard, rfl, hlog⟩

/-- A write shows as soon as the file is renamed. -/
theorem storage_written_new (h : dir.storage = some s) {name : FileName} {v : Document name} {step : WriteStep}
    {fate : Fate} (hrenamed : fate = .succeeds ∨ step.afterRename = true) :
    (dir.written name v step fate).storage = some (s.put name v) := by
  have hnew := storage_replace h name v true
  cases fate with
  | succeeds => exact (storage_congr rfl).trans hnew
  | fails | crashes =>
    have hafter : step.afterRename = true := hrenamed.resolve_left nofun
    rwa [written, if_pos hafter]

/-- A write that stops before the rename does not show. -/
theorem storage_written_old (h : dir.storage = some s) {name : FileName} {v : Document name} {step : WriteStep}
    {fate : Fate} (hfate : fate ≠ .succeeds) (hbefore : step.afterRename = false) :
    (dir.written name v step fate).storage = some s := by
  cases fate with
  | succeeds => exact absurd rfl hfate
  | fails | crashes => rwa [written, hbefore, if_neg Bool.false_ne_true]

/-- The log file is read as `JSONStorage` reads it. -/
theorem loadLog_eq (h : dir.storage = some s) : dir.loadLog = s.loadLog := by
  simp only [loadLog, (storage_eq_some.mp h).2.2, Option.bind_eq_bind, Option.bind_some]
  rfl

end Files

namespace JSONStorage

variable {s : JSONStorage} {ps : PersistentState}

/-- The entries that are read are a clone. -/
theorem clone_of_loadLog {base : Int} {entries : Slice LogEntry} (h : s.loadLog = some (base, entries)) :
    entries = cloneLogEntries (some entries.elements) := by
  have hclone : ∀ src, cloneLogEntries src = cloneLogEntries (some (cloneLogEntries src).elements) := fun src =>
    cloneLogEntries_congr (cloneLogEntries_elements src).symm
  unfold loadLog at h
  split at h
  · cases h
    rfl
  · split at h
    · cases h
      exact hclone _
    · cases h
  · cases h
    exact hclone _

/-- What `Load` returns is what the files hold. -/
theorem holds_of_load (h : s.load = some ps) : s.Holds ps := by
  simp only [JSONStorage.load, Option.bind_eq_bind, Option.bind_eq_some_iff] at h
  obtain ⟨⟨base, entries⟩, hlog, heq⟩ := h
  cases heq
  refine ⟨⟨rfl, rfl⟩, hlog.trans ?_⟩
  rw [← clone_of_loadLog hlog]

/-- `Load` after a call returns what the call is to make of the state, unless the log file cannot be read. -/
theorem Holds.load_perform (h : s.Holds ps) {op : StorageOp} {s' : JSONStorage} (hperform : s.perform op = some s') :
    s'.load = if op.WritesNull ps then none else some (op.inMemory ps) := by
  by_cases hnull : op.WritesNull ps
  · obtain ⟨s'', hperform', hunreadable⟩ := h.performNull hnull
    cases hperform.symm.trans hperform'
    rw [if_pos hnull, hunreadable.load]
  · obtain ⟨s'', hperform', hholds⟩ := h.perform hnull
    cases hperform.symm.trans hperform'
    rw [if_neg hnull, hholds.load]

end JSONStorage

/-- A call writes one file as a whole, unless it has nothing to append. -/
theorem StorageOp.attempt_cases {dir : Files} {s : JSONStorage} {ps : PersistentState} (hdir : dir.storage = some s)
    (h : s.Holds ps) (op : StorageOp) (tmp : ℕ) :
    (op.attempt dir tmp = pure true ∧ op.inMemory ps = ps ∧ ¬op.WritesNull ps) ∨
      ∃ name v, op.attempt dir tmp = writeJSONAtomically name tmp v ∧ s.perform op = some (s.put name v) := by
  have hlog := (Files.loadLog_eq hdir).trans h.log
  cases op with
  | saveHardState state => exact Or.inr ⟨.hardState, state, rfl, rfl⟩
  | saveSnapshot snap => exact Or.inr ⟨.snapshot, snap, rfl, rfl⟩
  | setLog base entries => exact Or.inr ⟨.log, .stored base entries, rfl, rfl⟩
  | appendLog entries =>
    by_cases hempty : entries.elements = []
    · refine Or.inl ⟨if_pos hempty, ?_, nofun⟩
      simp only [StorageOp.inMemory, StorageOp.call, StorageCall.effect, hempty, List.append_nil]
    · refine Or.inr ⟨.log, .stored ps.logBase (some (ps.log ++ entries.elements)), ?_, ?_⟩
      · simp only [StorageOp.attempt, if_neg hempty, hlog, cloneLogEntries_elements]
        rfl
      · simp only [JSONStorage.perform, JSONStorage.appendLog, if_neg hempty, h.log, Option.bind_eq_bind,
          Option.bind_some, cloneLogEntries_elements]
        rfl
  | truncateLog keepN =>
    refine Or.inr ⟨.log, .stored ps.logBase ((cloneLogEntries (some ps.log)).map
      (·.take (min (max 0 keepN) (ps.log.length : Int)).toNat)), ?_, ?_⟩
    · simp only [StorageOp.attempt, hlog, cloneLogEntries_elements]
      rfl
    · simp only [JSONStorage.perform, JSONStorage.truncateLog, h.log, Option.bind_eq_bind, Option.bind_some,
        cloneLogEntries_elements]
      rfl

/-- What a call is to guarantee: `Load` sees the old state or the new one, the new one if the call returned nil,
and the old one if it returned an error. -/
structure AllOrNothing (old new : PersistentState) (r : Outcome Bool × Files) : Prop where
  seen : r.2.load = some old ∨ r.2.load = some new
  succeeded : r.1 = .returned true → r.2.load = some new
  failed : r.1 = .returned false → r.2.load = some old

/-- The call guarantees it when this step has this fate: it does not write null entries at base zero, unless it
is stopped before the rename, and the directory is opened and synced, unless the call changes nothing. -/
def StorageOp.Tolerates (op : StorageOp) (ps : PersistentState) (step : WriteStep) (fate : Fate) : Prop :=
  (op.WritesNull ps → fate ≠ .succeeds ∧ step.afterRename = false) ∧
    (fate = .fails → step.afterRename = true → op.inMemory ps = ps)

/-- A write fails exactly if a step fails. -/
@[simp] theorem writeOutcome_eq_returned (fate : Fate) (ok : Bool) :
    writeOutcome fate = .returned ok ↔ fate = if ok then .succeeds else .fails := by
  cases fate <;> cases ok <;> decide

/-- **When a failed call has changed nothing.** Every call of the storage is all or nothing, whichever step fails
or is the last of the process, except where the directory cannot be opened or synced for a call that changes
the state, and where the log file that is written cannot be read. -/
theorem StorageOp.all_or_nothing_iff {dir : Files} {ps : PersistentState} (h : dir.load = some ps) (op : StorageOp)
    (tmp : ℕ) (step : WriteStep) (fate : Fate) :
    AllOrNothing ps (op.inMemory ps) ((op.attempt dir tmp).run (step.fates fate) dir) ↔ op.Tolerates ps step fate := by
  obtain ⟨s, hdir, hload⟩ := Option.bind_eq_some_iff.mp h
  have hholds := JSONStorage.holds_of_load hload
  obtain ⟨hattempt, hsame, hnull⟩ | ⟨name, v, hattempt, hperform⟩ := op.attempt_cases hdir hholds tmp
  · rw [hattempt, hsame]
    exact iff_of_true ⟨Or.inl h, fun _ => h, nofun⟩ ⟨fun hop => absurd hop hnull, fun _ _ => hsame⟩
  obtain ⟨dir', hrun, hnames⟩ := run_writeJSONAtomically dir name tmp v step fate
  rw [hattempt, hrun]
  by_cases hrenamed : fate = .succeeds ∨ step.afterRename = true
  · have hseen : dir'.load = if op.WritesNull ps then none else some (op.inMemory ps) := by
      rw [Files.load, Files.storage_congr hnames.files, Files.storage_written_new hdir hrenamed]
      exact hholds.load_perform hperform
    by_cases hnull : op.WritesNull ps
    · -- the file that shows cannot be read
      rw [if_pos hnull] at hseen
      refine iff_of_false (fun hall => ?_) fun htolerates => ?_
      · have hsome := hall.seen
        simp only [hseen, reduceCtorEq, or_self] at hsome
      · obtain ⟨hfate, hbefore⟩ := htolerates.1 hnull
        exact hrenamed.elim hfate fun hafter => Bool.false_ne_true (hbefore.symm.trans hafter)
    · rw [if_neg hnull] at hseen
      constructor
      · refine fun hall => ⟨fun hop => absurd hop hnull, fun hfails _ => ?_⟩
        have hold := hall.failed ((writeOutcome_eq_returned fate false).mpr hfails)
        exact Option.some.inj (hseen.symm.trans hold)
      · refine fun htolerates => ⟨Or.inr hseen, fun _ => hseen, fun hfailed => ?_⟩
        have hfails : fate = .fails := (writeOutcome_eq_returned fate false).mp hfailed
        have hafter : step.afterRename = true := hrenamed.resolve_left (by rw [hfails]; nofun)
        exact hseen.trans (congrArg some (htolerates.2 hfails hafter))
  · obtain ⟨hfate, hbefore⟩ := not_or.mp hrenamed
    have hbefore' : step.afterRename = false := Bool.eq_false_iff.mpr hbefore
    have hseen : dir'.load = some ps := by
      rw [Files.load, Files.storage_congr hnames.files, Files.storage_written_old hdir hfate hbefore']
      exact hload
    refine iff_of_true ⟨Or.inl hseen, fun hok => ?_, fun _ => hseen⟩ ⟨fun _ => ⟨hfate, hbefore'⟩, fun _ hafter => ?_⟩
    · exact absurd ((writeOutcome_eq_returned fate true).mp hok) hfate
    · exact absurd hafter hbefore

/-- A directory without files. -/
def Files.fresh : Files where
  files _ := none
  temps _ _ := none
  replaced _ := []

/-- The entry of a failed append: the rename fails, and the log is as before. -/
theorem all_or_nothing_of_failed_rename :
    AllOrNothing .empty (StorageOp.inMemory (.appendLog (some [⟨1, entryCommand, [7]⟩])) .empty)
      (((StorageOp.appendLog (some [⟨1, entryCommand, [7]⟩])).attempt .fresh 0).run (WriteStep.rename.fates .fails)
        .fresh) :=
  (StorageOp.all_or_nothing_iff rfl _ 0 .rename .fails).mpr ⟨nofun, nofun⟩

/-- The first entry of a log is appended, and syncing the directory fails. The call returns an error, but the
entry is in the log, and the entry that is appended next comes behind it. -/
theorem failed_append_leaves_ghost :
    Files.fresh.load = some .empty ∧
      ∃ dir dir', ((StorageOp.appendLog (some [⟨1, entryCommand, [7]⟩])).attempt .fresh 0).run
          (WriteStep.syncDir.fates .fails) .fresh = (.returned false, dir) ∧
        dir.load.map PersistentState.log = some [⟨1, entryCommand, [7]⟩] ∧
        ((StorageOp.appendLog (some [⟨1, entryCommand, [8]⟩])).attempt dir 1).run [] dir = (.returned true, dir') ∧
        dir'.load.map PersistentState.log = some [⟨1, entryCommand, [7]⟩, ⟨1, entryCommand, [8]⟩] :=
  ⟨rfl, _, _, rfl, rfl, rfl, rfl⟩

/-- **A call survives a loss of power.** If everything was on disk before the call, then after a loss of power
`Load` sees the old state or the new one, and the new one if the call returned nil. -/
theorem StorageOp.survives_power_loss {dir dir' dir'' : Files} {ps : PersistentState} {op : StorageOp} {tmp : ℕ}
    {step : WriteStep} {fate : Fate} {outcome : Outcome Bool} (h : dir.load = some ps) (hdurable : dir.Durable)
    (hnull : ¬op.WritesNull ps) (hrun : (op.attempt dir tmp).run (step.fates fate) dir = (outcome, dir'))
    (hpower : dir'.Recovers dir'') :
    (dir''.load = some ps ∨ dir''.load = some (op.inMemory ps)) ∧
      (outcome = .returned true → dir''.load = some (op.inMemory ps)) := by
  obtain ⟨s, hdir, hload⟩ := Option.bind_eq_some_iff.mp h
  have hholds := JSONStorage.holds_of_load hload
  have hold : dir''.files = dir.files → dir''.load = some ps := fun hfiles => by
    rw [Files.load, Files.storage_congr hfiles]
    exact h
  obtain ⟨hattempt, hsame, _⟩ | ⟨name, v, hattempt, hperform⟩ := op.attempt_cases hdir hholds tmp
  · rw [hattempt] at hrun
    cases hrun
    rw [hsame]
    exact ⟨Or.inl (hold (hdurable.recovers hpower)), fun _ => hold (hdurable.recovers hpower)⟩
  have hnew : dir''.files = (dir.replace name { doc := some v, synced := true }).files →
      dir''.load = some (op.inMemory ps) := fun hfiles => by
    rw [Files.load, Files.storage_congr hfiles, Files.storage_replace hdir]
    exact (hholds.load_perform hperform).trans (if_neg hnull)
  obtain ⟨_, hwritten, hnames⟩ := run_writeJSONAtomically dir name tmp v step fate
  rw [hattempt, hwritten] at hrun
  cases hrun
  have hrecovers := hnames.recovers hpower
  cases fate with
  | succeeds =>
    have hfiles := (hdurable.settle rfl).recovers hrecovers
    exact ⟨Or.inr (hnew hfiles), fun _ => hnew hfiles⟩
  | fails | crashes =>
    refine ⟨?_, nofun⟩
    rw [Files.written] at hrecovers
    split at hrecovers
    · exact (hdurable.recovers_replace rfl hrecovers).imp hold hnew
    · exact Or.inl (hold (hdurable.recovers hrecovers))

end ConsensusLab.Raft
