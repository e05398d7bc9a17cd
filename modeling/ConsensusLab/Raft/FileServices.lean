import ConsensusLab.Foundation.StorageLayers
import ConsensusLab.Raft.FileWrites
import ConsensusLab.Raft.StorageMirror

/-!
# Storage calls served by files

A storage call is served by `JSONStorage`, where any number of the file system's calls can
fail and any of them can be the last. As long as the directory is opened and synced when
a write gets that far, and no log file is written that cannot be read, the files implement
the storage: a call that returns nil has its effect for good, one that returns an error has
none, and when the power fails during a call, the state before or after it is found. So it
is when the process alone is killed, unless that happens between the rename and the sync of
the directory: then the next start finds the new state, and a later loss of power can bring
the old one back.
-/

namespace ConsensusLab.Raft

open Foundation StorageProgram Directory

/-- How the file system serves a storage call: the temporary file that it hands out, and the fates of its calls. -/
structure FileTurn where
  tmp : ℕ := 0
  fates : List Fate := []
  deriving DecidableEq, Repr, Inhabited

/-- Where some calls remain before the directory is opened, it is opened and synced if they succeed. -/
def SyncsAfter (remaining : ℕ) (fates : List Fate) : Prop :=
  (∀ fate ∈ fates.take remaining, fate = .succeeds) →
    fates[remaining]? ≠ some .fails ∧ fates[remaining + 1]? ≠ some .fails

instance (remaining : ℕ) (fates : List Fate) : Decidable (SyncsAfter remaining fates) :=
  inferInstanceAs (Decidable (_ → _))

/-- A storage call, served by the files. -/
def serveFiles (empty : Slice LogEntry) (turn : FileTurn) (dir : Files) (c : StorageCall) : Outcome Bool × Files :=
  ((c.op empty).attempt dir turn.tmp).run turn.fates dir

/-- Neither opening nor syncing the directory fails, and no null entries are written at base zero. -/
def FileTurn.admitted (empty : Slice LogEntry) (turn : FileTurn) (dir : Files) (c : StorageCall) : Bool :=
  decide (SyncsAfter 6 turn.fates) && dir.load.all fun ps => decide ¬(c.op empty).WritesNull ps

/-- One more call has succeeded. -/
theorem SyncsAfter.next {remaining : ℕ} {fates rest : List Fate} (h : SyncsAfter (remaining + 1) fates)
    (hrest : AfterSuccess fates rest) : SyncsAfter remaining rest := by
  rcases hrest with rfl | ⟨rfl, rfl⟩
  · intro hall
    refine h fun fate hfate => ?_
    rw [List.take_succ_cons, List.mem_cons] at hfate
    exact hfate.elim (fun heq => heq) (hall fate)
  · exact fun _ => ⟨nofun, nofun⟩

/-- The directory is opened. -/
theorem SyncsAfter.opens {fates rest : List Fate} (h : SyncsAfter 0 fates) : fates ≠ .fails :: rest := by
  rintro rfl
  exact (h nofun).1 rfl

/-- The directory is synced. -/
theorem SyncsAfter.syncs {fates rest rest' : List Fate} (h : SyncsAfter 0 fates) (hrest : AfterSuccess fates rest) :
    rest ≠ .fails :: rest' := by
  rintro rfl
  rcases hrest with rfl | ⟨_, hnil⟩
  · exact (h nofun).2 rfl
  · cases hnil

section Writes

variable {dir dir' : Files} {name : FileName} {tmp : ℕ} {v : Document name}

/-- The directory once a file has a new document and the directory is synced. -/
def Files.settled (dir : Files) (name : FileName) (v : Document name) : Files :=
  { dir.replace name { doc := some v, synced := true } with replaced := fun _ => [] }

/-- How a write ends, and with which names. -/
inductive Files.Writes (dir : Files) (name : FileName) (v : Document name) : Outcome Bool × Files → Prop
  | written {dir' : Files} (h : (dir.settled name v).SameNames dir') : Writes dir name v (.returned true, dir')
  | refused {dir' : Files} (h : dir.SameNames dir') : Writes dir name v (.returned false, dir')
  | cutBefore {dir' : Files} (h : dir.SameNames dir') : Writes dir name v (.crashed, dir')
  | cutBehind {dir' : Files} (h : SameNames (dir.replace name { doc := some v, synced := true }) dir') :
      Writes dir name v (.crashed, dir')
  | cutSettled {dir' : Files} (h : (dir.settled name v).SameNames dir') : Writes dir name v (.crashed, dir')

/-- A write that has failed removes its temporary file, if it can. -/
theorem Files.Writes.of_remove {fates : List Fate} (h : dir.SameNames dir') :
    dir.Writes name v ((fileCall (.remove name tmp) >>= fun _ => pure false).run fates dir') :=
  exec_call_cases (fun _ _ => .refused ⟨h.files, h.replaced⟩) (fun _ _ => .refused h) (.cutBefore h)

/-- Before that it closes the file, if it can. -/
theorem Files.Writes.of_close {fates : List Fate} (h : dir.SameNames dir') :
    dir.Writes name v ((do
      let _ ← fileCall (.close name tmp)
      let _ ← fileCall (.remove name tmp)
      pure false : FileProgram Bool).run fates dir') :=
  exec_call_cases (fun _ _ => .of_remove h) (fun _ _ => .of_remove h) (.cutBefore h)

/-- A write that has renamed its file, and whose directory can be opened and synced. -/
theorem Files.Writes.of_rename {fates : List Fate} (hsyncs : SyncsAfter 0 fates)
    (h : SameNames (dir.replace name { doc := some v, synced := true }) dir') :
    dir.Writes name v ((do
      let written ← syncParent
      let _ ← fileCall (.remove name tmp)
      pure written : FileProgram Bool).run fates dir') := by
  refine exec_call_cases (fun rest hrest => ?_) (fun _ hfails => absurd hfails hsyncs.opens) (.cutBehind h)
  refine exec_call_cases (fun _ _ => ?_) (fun _ hfails => absurd hfails (hsyncs.syncs hrest)) (.cutBehind h)
  have hnames : (dir.settled name v).SameNames { dir' with replaced := fun _ => [] } := ⟨h.files, rfl⟩
  have hremove : ∀ fates, dir.Writes name v ((fileCall (.remove name tmp) >>= fun _ => pure true).run fates
      { dir' with replaced := fun _ => [] }) := fun _ =>
    exec_call_cases (fun _ _ => .written ⟨hnames.files, rfl⟩) (fun _ _ => .written hnames) (.cutSettled hnames)
  exact exec_call_cases (fun _ _ => hremove _) (fun _ _ => hremove _) (.cutSettled hnames)

/-- A write, whatever becomes of the calls before the directory is opened. -/
theorem Files.writes_writeJSONAtomically {fates : List Fate} (hsyncs : SyncsAfter 6 fates) :
    dir.Writes name v ((writeJSONAtomically name tmp v).run fates dir) := by
  have hsame : dir.SameNames dir := ⟨rfl, rfl⟩
  refine exec_call_cases (fun _ hmade => ?_) (fun _ _ => .refused hsame) (.cutBefore hsame)
  refine exec_call_cases (fun _ hcreated => ?_) (fun _ _ => .refused hsame) (.cutBefore hsame)
  refine exec_call_cases (fun _ hwritten => ?_) (fun _ _ => .of_close ⟨rfl, rfl⟩) (.cutBefore ⟨rfl, rfl⟩)
  refine exec_call_cases (fun _ hsynced => ?_) (fun _ _ => .of_close ⟨rfl, rfl⟩) (.cutBefore ⟨rfl, rfl⟩)
  refine exec_call_cases (fun _ hclosed => ?_) (fun _ _ => .of_remove ⟨rfl, rfl⟩) (.cutBefore ⟨rfl, rfl⟩)
  refine exec_call_cases (fun _ hrenamed => ?_) (fun _ _ => .of_remove ⟨rfl, rfl⟩) (.cutBefore ⟨rfl, rfl⟩)
  have hopens := (((((hsyncs.next hmade).next hcreated).next hwritten).next hsynced).next hclosed).next hrenamed
  refine .of_rename hopens ?_
  constructor <;> simp [FileCall.effect]

end Writes

/-- A loss of power: which entry of each name is found afterwards, and what is found of a file that was not synced. -/
structure Outage where
  entry : FileName → ℕ := fun _ => 0
  content : (name : FileName) → FileContent (Document name) := fun _ => { doc := none, synced := true }

/-- The directory when the machine is up again. -/
def Files.recovered (dir : Files) (outage : Outage) : Files where
  files name := ((dir.files name :: dir.replaced name)[outage.entry name]?.getD (dir.files name)).map fun content =>
    if content.synced then content else outage.content name
  temps := dir.temps
  replaced _ := []

/-- How a process is lost: it alone, or with its machine. -/
inductive Loss
  | kill
  | outage (outage : Outage)

/-- The directory that the next start finds. -/
def Files.after (dir : Files) : Loss → Files
  | .kill => dir
  | .outage outage => dir.recovered outage

/-- Every rename is on disk. -/
def Files.renamesSynced (dir : Files) : Bool :=
  [FileName.hardState, .log, .snapshot].all fun name => (dir.replaced name).isEmpty

/-- No rename is left that is seen by the next start and not yet on disk. -/
def Loss.settles (dir : Files) : Loss → Bool
  | .kill => dir.renamesSynced
  | .outage _ => true

/-- The directory holds a state, and a loss of power does not change that. -/
structure Files.Holds (dir : Files) (ps : PersistentState) : Prop where
  load : dir.load = some ps
  durable : dir.Durable

section Services

variable {dir dir' : Files} {ps : PersistentState} {empty : Slice LogEntry} {turn : FileTurn} {c : StorageCall}

/-- A name has one of the entries it had since the directory was synced. -/
theorem Files.recovers_recovered (dir : Files) (outage : Outage) : dir.Recovers (dir.recovered outage) := by
  intro name
  refine ⟨(dir.files name :: dir.replaced name)[outage.entry name]?.getD (dir.files name), ?_, ?_⟩
  · cases hentry : (dir.files name :: dir.replaced name)[outage.entry name]? with
    | none => exact List.mem_cons_self
    | some entry => exact List.mem_of_getElem? hentry
  · change Kept _ (Option.map _ _)
    cases (dir.files name :: dir.replaced name)[outage.entry name]?.getD (dir.files name) with
    | none => rfl
    | some content =>
      rw [Kept, Option.map_some]
      split
      · rfl
      · exact ⟨_, rfl⟩

/-- What is found under the names of a directory that was on disk is on disk. -/
theorem Files.durable_recovered {durable : Files} {outage : Outage} (h : durable.Durable)
    (hfiles : (dir.recovered outage).files = durable.files) : (dir.recovered outage).Durable := by
  refine ⟨fun _ => rfl, fun name content hcontent => h.synced name content ?_⟩
  rwa [hfiles] at hcontent

/-- Only the names matter to what a directory holds. -/
theorem Files.Holds.congr (h : dir.Holds ps) (hnames : dir.SameNames dir') : dir'.Holds ps where
  load := by
    rw [Files.load, Files.storage_congr hnames.files]
    exact h.load
  durable := by
    refine ⟨fun name => ?_, fun name content hcontent => h.durable.synced name content ?_⟩
    · rw [hnames.replaced]
      exact h.durable.settled name
    · rwa [hnames.files] at hcontent

/-- A loss of power leaves what a directory holds. -/
theorem Files.Holds.recovered (h : dir.Holds ps) (outage : Outage) : (dir.recovered outage).Holds ps := by
  have hfiles := h.durable.recovers (dir.recovers_recovered outage)
  refine ⟨?_, Files.durable_recovered h.durable hfiles⟩
  rw [Files.load, Files.storage_congr hfiles]
  exact h.load

/-- So does any loss of the process. -/
theorem Files.Holds.after (h : dir.Holds ps) (loss : Loss) : (dir.after loss).Holds ps := by
  cases loss with
  | kill => exact h
  | outage outage => exact h.recovered outage

/-- Where every rename is on disk, none was made since the directory was synced. -/
theorem Files.replaced_of_renamesSynced (h : dir.renamesSynced = true) (name : FileName) : dir.replaced name = [] := by
  rw [Files.renamesSynced, List.all_eq_true] at h
  refine List.isEmpty_iff.mp (h name ?_)
  cases name <;> decide

/-- The call with its slices has the effect of the call. -/
theorem StorageCall.op_inMemory (hempty : empty.elements = []) (c : StorageCall) (ps : PersistentState) :
    (c.op empty).inMemory ps = c.effect ps := by
  cases c with
  | setLog base entries =>
    by_cases hentries : entries = []
    · rw [StorageCall.op, if_pos hentries, StorageOp.inMemory, StorageOp.call, hempty, hentries]
    · rw [StorageCall.op, if_neg hentries]
      rfl
  | saveHardState | appendLog | truncateLog | saveSnapshot => rfl

/-- A call has nothing to write, or it is one write, after which the files are in the state behind the call. -/
theorem Files.Holds.serve (h : dir.Holds ps) (hempty : empty.elements = [])
    (hadmitted : turn.admitted empty dir c = true) :
    (serveFiles empty turn dir c = (.returned true, dir) ∧ c.effect ps = ps) ∨
      ∃ name v, dir.Writes name v (serveFiles empty turn dir c) ∧ ∀ dir' : Files,
        dir'.files = (dir.replace name { doc := some v, synced := true }).files → dir'.load = some (c.effect ps) := by
  rw [FileTurn.admitted, Bool.and_eq_true, decide_eq_true_eq, h.load] at hadmitted
  obtain ⟨hsyncs, hnull⟩ := hadmitted
  have hnull : ¬(c.op empty).WritesNull ps := of_decide_eq_true hnull
  obtain ⟨s, hdir, hload⟩ := Option.bind_eq_some_iff.mp h.load
  have hholds := JSONStorage.holds_of_load hload
  obtain ⟨hattempt, hsame, _⟩ | ⟨name, v, hattempt, hperform⟩ := (c.op empty).attempt_cases hdir hholds turn.tmp
  · rw [StorageCall.op_inMemory hempty] at hsame
    refine Or.inl ⟨?_, hsame⟩
    rw [serveFiles, hattempt]
    rfl
  · refine Or.inr ⟨name, v, ?_, fun dir' hfiles => ?_⟩
    · rw [serveFiles, hattempt]
      exact Files.writes_writeJSONAtomically hsyncs
    · rw [Files.load, Files.storage_congr hfiles, Files.storage_replace hdir]
      rw [← StorageCall.op_inMemory hempty]
      exact (hholds.load_perform hperform).trans (if_neg hnull)

/-- What the start after a cut finds when the rename may not be on disk yet: either entry of the name. -/
theorem Files.Holds.after_replace {name : FileName} {v : Document name} {ps' : PersistentState} {loss : Loss}
    (h : dir.Holds ps) (hnames : SameNames (dir.replace name { doc := some v, synced := true }) dir')
    (hnew : ∀ dir'' : Files, dir''.files = (dir.replace name { doc := some v, synced := true }).files →
      dir''.load = some ps') (hsettles : loss.settles dir' = true) :
    (dir'.after loss).Holds ps ∨ (dir'.after loss).Holds ps' := by
  cases loss with
  | kill =>
    have hnone := Files.replaced_of_renamesSynced hsettles name
    rw [hnames.replaced] at hnone
    simp only [Directory.replace, Function.update_self, reduceCtorEq] at hnone
  | outage outage =>
    have hrecovers := hnames.recovers (dir'.recovers_recovered outage)
    rcases h.durable.recovers_replace rfl hrecovers with hold | hnewer
    · refine Or.inl ⟨?_, Files.durable_recovered h.durable hold⟩
      rw [Files.load, Files.after, Files.storage_congr hold]
      exact h.load
    · have hdurable : Durable (dir.settled name v) := h.durable.settle rfl
      exact Or.inr ⟨hnew _ hnewer, Files.durable_recovered hdurable hnewer⟩

/-- **Files implement the storage**, through failures, kills and losses of power. -/
theorem implements_serveFiles (hempty : empty.elements = []) :
    Implements (serveFiles empty) (FileTurn.admitted empty) StorageCall.effect Files.Holds
      (fun dir dir' => ∃ loss : Loss, loss.settles dir = true ∧ dir' = dir.after loss) where
  succeeded {turn dir c ps dir'} h hadmitted hserve := by
    rcases h.serve hempty hadmitted with ⟨hnothing, hsame⟩ | ⟨name, v, hwrites, hnew⟩
    · cases hserve.symm.trans hnothing
      rwa [hsame]
    · rw [hserve] at hwrites
      cases hwrites with
      | written hnames =>
        have hsettled : (dir.settled name v).Holds (c.effect ps) := ⟨hnew _ rfl, h.durable.settle rfl⟩
        exact hsettled.congr hnames
  failed {turn dir c ps dir'} h hadmitted hserve := by
    rcases h.serve hempty hadmitted with ⟨hnothing, _⟩ | ⟨name, v, hwrites, _⟩
    · cases hserve.symm.trans hnothing
    · rw [hserve] at hwrites
      cases hwrites with
      | refused hnames => exact h.congr hnames
  crashed {turn dir c ps dir' dir''} h hadmitted hserve hfound := by
    obtain ⟨loss, hsettles, rfl⟩ := hfound
    rcases h.serve hempty hadmitted with ⟨hnothing, _⟩ | ⟨name, v, hwrites, hnew⟩
    · cases hserve.symm.trans hnothing
    · rw [hserve] at hwrites
      cases hwrites with
      | cutBefore hnames => exact Or.inl ((h.congr hnames).after loss)
      | cutSettled hnames =>
        have hsettled : (dir.settled name v).Holds (c.effect ps) := ⟨hnew _ rfl, h.durable.settle rfl⟩
        exact Or.inr ((hsettled.congr hnames).after loss)
      | cutBehind hnames => exact h.after_replace hnames hnew hsettles
  total {turn dir c ps dir'} h hadmitted hserve := by
    rcases h.serve hempty hadmitted with ⟨hnothing, _⟩ | ⟨name, v, hwrites, _⟩
    · cases hserve.symm.trans hnothing
    · rw [hserve] at hwrites
      cases hwrites

end Services

end ConsensusLab.Raft
