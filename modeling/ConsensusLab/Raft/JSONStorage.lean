import ConsensusLab.Raft.Types
import Mathlib.Data.List.Basic

/-!
# The file-backed storage

`JSONStorage` keeps the hard state, the log and the snapshot in three files and reads the
log file again before it changes it. `loadLog` takes a log file for one of the old format,
a bare array, if its base is zero and its entries are null, and such a file it cannot
read. `InMemoryStorage`, whose calls are the effects of `StorageCall`, has no such state.

The two agree on a sequence of calls exactly if every call that leaves null entries at
base zero is followed by a `SetLog` before the log file is read.
-/

namespace ConsensusLab.Raft

/-- A Go slice, with `none` for nil. -/
abbrev Slice (A : Type) := Option (List A)

/-- The elements of a slice. -/
def Slice.elements {A : Type} (s : Slice A) : List A :=
  s.getD []

/-- The calls of the `Storage` interface with the slices they are given. -/
inductive StorageOp
  | saveHardState (state : HardState)
  | appendLog (entries : Slice LogEntry)
  | truncateLog (keepN : Int)
  | setLog (baseIndex : Int) (entries : Slice LogEntry)
  | saveSnapshot (snap : Snapshot)
  deriving DecidableEq, Repr

/-- The call, with nil and empty slices identified. -/
def StorageOp.call : StorageOp → StorageCall
  | saveHardState state => .saveHardState state
  | appendLog entries => .appendLog entries.elements
  | truncateLog keepN => .truncateLog keepN
  | setLog baseIndex entries => .setLog baseIndex entries.elements
  | saveSnapshot snap => .saveSnapshot snap

/-- `InMemoryStorage` after a call. -/
def StorageOp.inMemory (op : StorageOp) (ps : PersistentState) : PersistentState :=
  op.call.effect ps

/-- The JSON document in a log file: `storedLog`, whose entries are null for a nil slice, or the bare
array of the old format. -/
inductive LogDocument
  | stored (base : Int) (entries : Slice LogEntry)
  | legacy (entries : List LogEntry)
  deriving DecidableEq, Repr

/-- The files of a `JSONStorage`, `none` where a file does not exist or is empty. Encoding and decoding are taken
to be inverse to each other. -/
structure JSONStorage where
  hardStateFile : Option HardState
  logFile : Option LogDocument
  snapshotFile : Option Snapshot
  deriving DecidableEq, Repr

/-- `cloneLogEntries`, which turns empty slices into nil. -/
def cloneLogEntries (src : Slice LogEntry) : Slice LogEntry :=
  if src.elements = [] then none else some src.elements

namespace JSONStorage

/-- A directory without files. -/
def fresh : JSONStorage where
  hardStateFile := none
  logFile := none
  snapshotFile := none

/-- `loadHardState`. -/
def loadHardState (s : JSONStorage) : HardState :=
  s.hardStateFile.getD PersistentState.empty.hard

/-- `loadLog`; `none` where it returns an error. A document of the new format that looks like none is
decoded as one of the old format, which fails. -/
def loadLog (s : JSONStorage) : Option (Int × Slice LogEntry) :=
  match s.logFile with
  | none => some (0, none)
  | some (.stored base entries) =>
    if entries ≠ none ∨ base ≠ 0 then some (base, cloneLogEntries entries) else none
  | some (.legacy entries) => some (0, cloneLogEntries (some entries))

/-- `loadSnapshot`. -/
def loadSnapshot (s : JSONStorage) : Option Snapshot :=
  s.snapshotFile

/-- `Load`. -/
def load (s : JSONStorage) : Option PersistentState := do
  let (logBase, entries) ← s.loadLog
  pure {
    hard := s.loadHardState
    logBase := logBase
    snapshot := s.loadSnapshot
    log := entries.elements }

/-- `writeLog`. -/
def writeLog (s : JSONStorage) (base : Int) (entries : Slice LogEntry) : JSONStorage :=
  { s with logFile := some (.stored base entries) }

/-- `AppendLog`. -/
def appendLog (s : JSONStorage) (entries : Slice LogEntry) : Option JSONStorage :=
  if entries.elements = [] then some s
  else do
    let (base, existing) ← s.loadLog
    pure (s.writeLog base (some (existing.elements ++ entries.elements)))

/-- `TruncateLog`; a nil slice stays nil. -/
def truncateLog (s : JSONStorage) (keepN : Int) : Option JSONStorage := do
  let (base, existing) ← s.loadLog
  let kept := min (max 0 keepN) existing.elements.length
  pure (s.writeLog base (existing.map (·.take kept.toNat)))

/-- One call; `none` where it returns an error. -/
def perform (s : JSONStorage) : StorageOp → Option JSONStorage
  | .saveHardState state => some { s with hardStateFile := some state }
  | .appendLog entries => s.appendLog entries
  | .truncateLog keepN => s.truncateLog keepN
  | .setLog baseIndex entries => some (s.writeLog baseIndex entries)
  | .saveSnapshot snap => some { s with snapshotFile := some snap }

/-- A sequence of calls. -/
def performAll (s : JSONStorage) (ops : List StorageOp) : Option JSONStorage :=
  ops.foldlM perform s

end JSONStorage

/-- `InMemoryStorage` after a sequence of calls. -/
def inMemoryAll (ps : PersistentState) (ops : List StorageOp) : PersistentState :=
  ops.foldl (fun ps op => op.inMemory ps) ps

/-- All calls on a fresh `JSONStorage` succeed, as those on a fresh `InMemoryStorage` do, and so does
`Load`, with the same result. -/
def Interchangeable (ops : List StorageOp) : Prop :=
  (JSONStorage.fresh.performAll ops).bind JSONStorage.load = some (inMemoryAll .empty ops)

instance (ops : List StorageOp) : Decidable (Interchangeable ops) :=
  inferInstanceAs (Decidable (_ = _))

/-- The call leaves null entries at base zero in the log file: it truncates an empty log, or sets the
log to nil. -/
def StorageOp.WritesNull (ps : PersistentState) : StorageOp → Prop
  | truncateLog _ => ps.logBase = 0 ∧ ps.log = []
  | setLog baseIndex entries => baseIndex = 0 ∧ entries = none
  | saveHardState _ | appendLog _ | saveSnapshot _ => False

instance (ps : PersistentState) (op : StorageOp) : Decidable (op.WritesNull ps) := by
  unfold StorageOp.WritesNull
  split <;> infer_instance

/-- The log is set again before a call reads it. -/
def Mended : List StorageOp → Prop
  | [] => False
  | .setLog _ _ :: _ => True
  | .truncateLog _ :: _ => False
  | .appendLog entries :: rest => entries.elements = [] ∧ Mended rest
  | .saveHardState _ :: rest | .saveSnapshot _ :: rest => Mended rest

/-- Every call that leaves null entries at base zero is mended. -/
def Legible (ps : PersistentState) : List StorageOp → Prop
  | [] => True
  | op :: rest => (op.WritesNull ps → Mended rest) ∧ Legible (op.inMemory ps) rest

namespace JSONStorage

/-- The files other than the log file hold what the in-memory storage holds. -/
structure Shares (s : JSONStorage) (ps : PersistentState) : Prop where
  hard : s.loadHardState = ps.hard
  snapshot : s.loadSnapshot = ps.snapshot

/-- The files hold what the in-memory storage holds. -/
structure Holds (s : JSONStorage) (ps : PersistentState) : Prop where
  shares : s.Shares ps
  log : s.loadLog = some (ps.logBase, cloneLogEntries (some ps.log))

/-- The log file cannot be read. -/
structure Unreadable (s : JSONStorage) (ps : PersistentState) : Prop where
  shares : s.Shares ps
  log : s.loadLog = none

end JSONStorage

/-- Cloning keeps the elements. -/
@[simp] theorem cloneLogEntries_elements (src : Slice LogEntry) :
    (cloneLogEntries src).elements = src.elements := by
  unfold cloneLogEntries
  split
  · rename_i h
    rw [h]
    rfl
  · rfl

/-- A slice of a clone has the elements of a slice of the source. -/
theorem cloneLogEntries_take (l : List LogEntry) (k : ℕ) :
    Slice.elements ((cloneLogEntries (some l)).map (·.take k)) = l.take k := by
  cases l with
  | nil => rw [List.take_nil]; rfl
  | cons entry rest => rfl

/-- Only the elements matter to cloning. -/
theorem cloneLogEntries_congr {src other : Slice LogEntry} (h : src.elements = other.elements) :
    cloneLogEntries src = cloneLogEntries other := by
  unfold cloneLogEntries
  rw [h]

namespace JSONStorage

variable {s s' : JSONStorage} {ps : PersistentState}

/-- A fresh directory holds what fresh memory holds. -/
theorem Holds.fresh : Holds JSONStorage.fresh .empty := ⟨⟨rfl, rfl⟩, rfl⟩

/-- What the files hold is what `Load` returns. -/
theorem Holds.load (h : s.Holds ps) : s.load = some ps := by
  simp only [JSONStorage.load, h.log, Option.bind_eq_bind, Option.bind_some, cloneLogEntries_elements,
    h.shares.hard, h.shares.snapshot]
  rfl

/-- `Load` fails on a log file that cannot be read. -/
theorem Unreadable.load (h : s.Unreadable ps) : s.load = none := by
  simp only [JSONStorage.load, h.log, Option.bind_eq_bind, Option.bind_none]

/-- A written log can be read, unless its entries are null at base zero. -/
theorem Shares.writeLog (h : s.Shares ps) {base : Int} {entries : Slice LogEntry}
    (hread : ¬(base = 0 ∧ entries = none)) :
    (s.writeLog base entries).Holds { ps with logBase := base, log := entries.elements } := by
  refine ⟨⟨h.hard, h.snapshot⟩, ?_⟩
  have hlook : entries ≠ none ∨ base ≠ 0 := by
    by_cases hbase : base = 0
    · exact Or.inl fun hnil => hread ⟨hbase, hnil⟩
    · exact Or.inr hbase
  simp only [loadLog, JSONStorage.writeLog, if_pos hlook]
  have hclone : cloneLogEntries entries = cloneLogEntries (some entries.elements) := cloneLogEntries_congr rfl
  rw [hclone]

/-- A written log of null entries at base zero cannot be read. -/
theorem Shares.writeNull (h : s.Shares ps) :
    (s.writeLog 0 none).Unreadable { ps with logBase := 0, log := [] } :=
  ⟨⟨h.hard, h.snapshot⟩, rfl⟩

/-- A call that does not leave null entries at base zero keeps the two storages equal. -/
theorem Holds.perform (h : s.Holds ps) {op : StorageOp} (hop : ¬op.WritesNull ps) :
    ∃ s', s.perform op = some s' ∧ s'.Holds (op.inMemory ps) := by
  cases op with
  | saveHardState state => exact ⟨_, rfl, ⟨rfl, h.shares.snapshot⟩, h.log⟩
  | saveSnapshot snap => exact ⟨_, rfl, ⟨h.shares.hard, rfl⟩, h.log⟩
  | setLog base entries => exact ⟨_, rfl, h.shares.writeLog hop⟩
  | appendLog entries =>
    by_cases hempty : entries.elements = []
    · refine ⟨s, if_pos hempty, ?_⟩
      have hsame : StorageOp.inMemory (.appendLog entries) ps = ps := by
        simp only [StorageOp.inMemory, StorageOp.call, StorageCall.effect, hempty, List.append_nil]
      rw [hsame]
      exact h
    · refine ⟨s.writeLog ps.logBase (some (ps.log ++ entries.elements)), ?_, h.shares.writeLog (by simp)⟩
      simp only [JSONStorage.perform, JSONStorage.appendLog, if_neg hempty, h.log, Option.bind_eq_bind,
        Option.bind_some, cloneLogEntries_elements]
      rfl
  | truncateLog keepN =>
    let kept := (min (max 0 keepN) (ps.log.length : Int)).toNat
    have htake : ps.log.take kept = ps.log.take keepN.toNat := by
      rw [List.take_eq_take_iff]
      change min (min (max 0 keepN) (ps.log.length : Int)).toNat ps.log.length = _
      omega
    refine ⟨s.writeLog ps.logBase ((cloneLogEntries (some ps.log)).map (·.take kept)), ?_, ?_⟩
    · simp only [JSONStorage.perform, JSONStorage.truncateLog, h.log, Option.bind_eq_bind, Option.bind_some,
        cloneLogEntries_elements]
      rfl
    · have hread : ¬(ps.logBase = 0 ∧ (cloneLogEntries (some ps.log)).map (·.take kept) = none) := by
        rintro ⟨hbase, hnil⟩
        refine hop ⟨hbase, ?_⟩
        by_contra hne
        have hclone : cloneLogEntries (some ps.log) = some ps.log := if_neg hne
        rw [hclone] at hnil
        cases hnil
      have hholds := h.shares.writeLog hread
      rw [cloneLogEntries_take, htake] at hholds
      exact hholds

/-- A call that leaves null entries at base zero succeeds, and the log file cannot be read afterwards. -/
theorem Holds.performNull (h : s.Holds ps) {op : StorageOp} (hop : op.WritesNull ps) :
    ∃ s', s.perform op = some s' ∧ s'.Unreadable (op.inMemory ps) := by
  cases op with
  | saveHardState | saveSnapshot | appendLog => cases hop
  | setLog base entries =>
    obtain ⟨rfl, rfl⟩ := hop
    exact ⟨_, rfl, h.shares.writeNull⟩
  | truncateLog keepN =>
    obtain ⟨hbase, hempty⟩ := hop
    have hlog := h.log
    rw [hbase, hempty] at hlog
    refine ⟨s.writeLog 0 none, ?_, ⟨⟨h.shares.hard, h.shares.snapshot⟩, rfl⟩⟩
    simp only [JSONStorage.perform, JSONStorage.truncateLog, hlog]
    rfl

/-- While the log file cannot be read, a call that reads it fails, and one that neither reads nor sets the
log leaves it so. -/
theorem Unreadable.perform (h : s.Unreadable ps) {op : StorageOp} (hop : ∀ base entries, op ≠ .setLog base entries) :
    (s.perform op = none ∧ ∀ rest, ¬Mended (op :: rest)) ∨
      ∃ s', s.perform op = some s' ∧ s'.Unreadable (op.inMemory ps) ∧ ¬op.WritesNull ps ∧
        ∀ rest, Mended (op :: rest) ↔ Mended rest := by
  cases op with
  | setLog base entries => exact absurd rfl (hop base entries)
  | saveHardState state =>
    exact Or.inr ⟨_, rfl, ⟨⟨rfl, h.shares.snapshot⟩, h.log⟩, nofun, fun _ => Iff.rfl⟩
  | saveSnapshot snap =>
    exact Or.inr ⟨_, rfl, ⟨⟨h.shares.hard, rfl⟩, h.log⟩, nofun, fun _ => Iff.rfl⟩
  | truncateLog keepN =>
    refine Or.inl ⟨?_, fun _ => nofun⟩
    simp only [JSONStorage.perform, JSONStorage.truncateLog, h.log]
    rfl
  | appendLog entries =>
    by_cases hempty : entries.elements = []
    · have hsame : StorageOp.inMemory (.appendLog entries) ps = ps := by
        simp only [StorageOp.inMemory, StorageOp.call, StorageCall.effect, hempty, List.append_nil]
      refine Or.inr ⟨s, if_pos hempty, by rw [hsame]; exact h, nofun, fun rest => ?_⟩
      exact and_iff_right hempty
    · refine Or.inl ⟨?_, fun _ hmended => hempty hmended.1⟩
      simp only [JSONStorage.perform, JSONStorage.appendLog, if_neg hempty, h.log]
      rfl

/-- The calls succeed on the files, and `Load` then returns what the in-memory storage holds. -/
def Agrees (s : JSONStorage) (ps : PersistentState) (ops : List StorageOp) : Prop :=
  (s.performAll ops).bind JSONStorage.load = some (inMemoryAll ps ops)

/-- Agreement after a call that succeeds. -/
theorem agrees_cons {op : StorageOp} (h : s.perform op = some s') (rest : List StorageOp) :
    s.Agrees ps (op :: rest) ↔ s'.Agrees (op.inMemory ps) rest := by
  unfold Agrees performAll
  rw [List.foldlM_cons, h]
  rfl

/-- There is no agreement after a call that fails. -/
theorem not_agrees_cons {op : StorageOp} (h : s.perform op = none) (rest : List StorageOp) :
    ¬s.Agrees ps (op :: rest) := by
  unfold Agrees performAll
  rw [List.foldlM_cons, h]
  nofun

/-- From files that hold the same, the storages agree on the legible sequences; from files whose log cannot
be read, on those that are mended as well. -/
theorem agrees_iff (ops : List StorageOp) :
    (∀ (s : JSONStorage) ps, s.Holds ps → (s.Agrees ps ops ↔ Legible ps ops)) ∧
      ∀ (s : JSONStorage) ps, s.Unreadable ps → (s.Agrees ps ops ↔ Mended ops ∧ Legible ps ops) := by
  induction ops with
  | nil =>
    refine ⟨fun s ps h => iff_of_true h.load trivial, fun s ps h => iff_of_false ?_ fun hmended => hmended.1⟩
    change s.load ≠ some ps
    rw [h.load]
    nofun
  | cons op rest ih =>
    obtain ⟨ihHolds, ihUnreadable⟩ := ih
    refine ⟨fun s ps h => ?_, fun s ps h => ?_⟩
    · by_cases hnull : op.WritesNull ps
      · obtain ⟨s', hperform, h'⟩ := h.performNull hnull
        rw [agrees_cons hperform, ihUnreadable s' _ h']
        exact and_congr_left fun _ => ⟨fun hmended _ => hmended, fun hmended => hmended hnull⟩
      · obtain ⟨s', hperform, h'⟩ := h.perform hnull
        rw [agrees_cons hperform, ihHolds s' _ h']
        exact (and_iff_right fun hop => absurd hop hnull).symm
    · by_cases hset : ∀ base entries, op ≠ .setLog base entries
      · rcases h.perform hset with ⟨hfails, hmended⟩ | ⟨s', hperform, h', hnull, hmended⟩
        · exact iff_of_false (not_agrees_cons hfails rest) fun hboth => hmended rest hboth.1
        · rw [agrees_cons hperform, ihUnreadable s' _ h', hmended rest]
          exact and_congr_right fun _ => (and_iff_right fun hop => absurd hop hnull).symm
      · simp only [not_forall, not_not] at hset
        obtain ⟨base, entries, rfl⟩ := hset
        by_cases hnull : base = 0 ∧ entries = none
        · obtain ⟨rfl, rfl⟩ := hnull
          have hperform : s.perform (.setLog 0 none) = some (s.writeLog 0 none) := rfl
          have h' : (s.writeLog 0 none).Unreadable (StorageOp.inMemory (.setLog 0 none) ps) :=
            h.shares.writeNull
          rw [agrees_cons hperform, ihUnreadable _ _ h']
          exact ⟨fun hboth => ⟨trivial, fun _ => hboth.1, hboth.2⟩,
            fun hboth => ⟨hboth.2.1 ⟨rfl, rfl⟩, hboth.2.2⟩⟩
        · have hperform : s.perform (.setLog base entries) = some (s.writeLog base entries) := rfl
          have h' : (s.writeLog base entries).Holds (StorageOp.inMemory (.setLog base entries) ps) :=
            h.shares.writeLog hnull
          rw [agrees_cons hperform, ihHolds _ _ h']
          exact ⟨fun hlegible => ⟨trivial, fun hop => absurd hop hnull, hlegible⟩, fun hboth => hboth.2.2⟩

end JSONStorage

/-- **When the storages are interchangeable.** On every sequence of calls `JSONStorage` succeeds and loads
what `InMemoryStorage` does exactly if each call that leaves null entries at base zero is followed by a
`SetLog` before the log is read. -/
theorem interchangeable_iff (ops : List StorageOp) : Interchangeable ops ↔ Legible .empty ops :=
  (JSONStorage.agrees_iff ops).1 .fresh .empty .fresh

/-- Truncating the log of fresh storage succeeds on both storages, and `Load` of the files then fails. -/
theorem truncated_fresh_log_unreadable :
    (JSONStorage.fresh.performAll [.truncateLog 0]).isSome = true ∧
      (JSONStorage.fresh.performAll [.truncateLog 0]).bind JSONStorage.load = none ∧
      inMemoryAll .empty [.truncateLog 0] = .empty ∧ ¬Interchangeable [.truncateLog 0] := by
  decide

end ConsensusLab.Raft
