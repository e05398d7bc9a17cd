import ConsensusLab.Foundation.StorageProgram
import Mathlib.Logic.Function.Basic

/-!
# A directory whose files are replaced

A directory holds files with names of their own and temporary files. A document is written
to a temporary file, which then takes over a name. Taking over a name is atomic for whoever
reads the file, and for the disk it is complete only when the directory is synced: if the
machine loses power before, the name may have any of the entries it had since the last time.

The bytes of a document are not modelled. A file holds a document when all of its bytes are
written, and it keeps them through a loss of power when it was synced.
-/

namespace ConsensusLab.Foundation

variable {Name : Type} {Doc : Name → Type}

/-- What a file holds. -/
structure FileContent (D : Type) where
  /-- The document, if all of it is written. -/
  doc : Option D
  /-- What was written is on disk. -/
  synced : Bool
  deriving DecidableEq, Repr

/-- A directory; the entry of a file that does not exist is `none`. -/
structure Directory (Doc : Name → Type) where
  files : (name : Name) → Option (FileContent (Doc name))
  temps : (name : Name) → ℕ → Option (FileContent (Doc name))
  /-- The entries a name had since the directory was synced. -/
  replaced : (name : Name) → List (Option (FileContent (Doc name)))

/-- The calls to the file system. -/
inductive FileCall (Doc : Name → Type)
  | mkdirAll
  | createTemp (name : Name) (tmp : ℕ)
  | write (name : Name) (tmp : ℕ) (doc : Doc name)
  | sync (name : Name) (tmp : ℕ)
  | close (name : Name) (tmp : ℕ)
  | rename (name : Name) (tmp : ℕ)
  | remove (name : Name) (tmp : ℕ)
  | openDir
  | syncDir
  | closeDir

namespace Directory

variable [DecidableEq Name]

/-- Change the entry of a temporary file. -/
def setTemp (dir : Directory Doc) (name : Name) (tmp : ℕ) (entry : Option (FileContent (Doc name))) :
    Directory Doc :=
  { dir with temps := Function.update dir.temps name (Function.update (dir.temps name) tmp entry) }

/-- Give a name to a content. -/
def replace (dir : Directory Doc) (name : Name) (content : FileContent (Doc name)) : Directory Doc :=
  { dir with
    files := Function.update dir.files name (some content)
    replaced := Function.update dir.replaced name (dir.files name :: dir.replaced name) }

/-- A temporary file takes over its name. -/
def rename (dir : Directory Doc) (name : Name) (tmp : ℕ) : Directory Doc :=
  match dir.temps name tmp with
  | none => dir
  | some content => (dir.replace name content).setTemp name tmp none

end Directory

/-- What a call that succeeds does. Making, opening and closing leave the files as they are. -/
def FileCall.effect [DecidableEq Name] : FileCall Doc → Directory Doc → Directory Doc
  | createTemp name tmp, dir => dir.setTemp name tmp (some { doc := none, synced := false })
  | write name tmp doc, dir => dir.setTemp name tmp (some { doc := some doc, synced := false })
  | sync name tmp, dir => dir.setTemp name tmp ((dir.temps name tmp).map fun content => { content with synced := true })
  | rename name tmp, dir => dir.rename name tmp
  | remove name tmp, dir => dir.setTemp name tmp none
  | syncDir, dir => { dir with replaced := fun _ => [] }
  | mkdirAll, dir | close _ _, dir | openDir, dir | closeDir, dir => dir

namespace Directory

section Edits

variable [DecidableEq Name] (dir : Directory Doc) (name : Name) (tmp : ℕ)

/-- The entry of a temporary file that was changed. -/
@[simp] theorem temps_setTemp (entry : Option (FileContent (Doc name))) :
    (dir.setTemp name tmp entry).temps name tmp = entry := by
  simp only [setTemp, Function.update_self]

/-- Temporary files do not show under the names. -/
@[simp] theorem files_setTemp (entry : Option (FileContent (Doc name))) :
    (dir.setTemp name tmp entry).files = dir.files := rfl

/-- Nor do they among what the names had. -/
@[simp] theorem replaced_setTemp (entry : Option (FileContent (Doc name))) :
    (dir.setTemp name tmp entry).replaced = dir.replaced := rfl

/-- Only the last change of a temporary file counts. -/
@[simp] theorem setTemp_setTemp (first second : Option (FileContent (Doc name))) :
    (dir.setTemp name tmp first).setTemp name tmp second = dir.setTemp name tmp second := by
  simp only [setTemp, Function.update_self, Function.update_idem]

/-- Temporary files and names are changed independently. -/
@[simp] theorem replace_setTemp (entry : Option (FileContent (Doc name))) (content : FileContent (Doc name)) :
    (dir.setTemp name tmp entry).replace name content = (dir.replace name content).setTemp name tmp entry := rfl

/-- Renaming a temporary file that exists. -/
@[simp] theorem rename_setTemp (content : FileContent (Doc name)) :
    (dir.setTemp name tmp (some content)).rename name tmp = (dir.replace name content).setTemp name tmp none := by
  simp only [rename, temps_setTemp, replace_setTemp, setTemp_setTemp]

end Edits

/-- Two directories with the same entries for the names, now and since the last sync. -/
structure SameNames (dir dir' : Directory Doc) : Prop where
  files : dir'.files = dir.files
  replaced : dir'.replaced = dir.replaced

/-- What a file holds after a loss of power. -/
def Kept {D : Type} : Option (FileContent D) → Option (FileContent D) → Prop
  | none, after => after = none
  | some before, after => if before.synced = true then after = some before else ∃ lost, after = some lost

/-- The names after a loss of power: each has one of the entries it had since the last sync. -/
def Recovers (dir dir' : Directory Doc) : Prop :=
  ∀ name, ∃ entry ∈ dir.files name :: dir.replaced name, Kept entry (dir'.files name)

/-- Only the names matter after a loss of power. -/
theorem SameNames.recovers {dir dir' dir'' : Directory Doc} (h : dir.SameNames dir') (hpower : dir'.Recovers dir'') :
    dir.Recovers dir'' := by
  intro name
  rw [← h.files, ← h.replaced]
  exact hpower name

/-- Everything is on disk: the directory is synced, and so are the files with a name. -/
structure Durable (dir : Directory Doc) : Prop where
  settled : ∀ name, dir.replaced name = []
  synced : ∀ name, ∀ content ∈ dir.files name, content.synced = true

/-- What is synced is kept. -/
theorem Kept.eq {D : Type} {before after : Option (FileContent D)} (h : Kept before after)
    (hsynced : ∀ content ∈ before, content.synced = true) : after = before := by
  cases before with
  | none => exact h
  | some content => rwa [Kept, if_pos (hsynced content rfl)] at h

/-- What is on disk is there again after a loss of power. -/
theorem Durable.recovers {dir dir' : Directory Doc} (hdurable : dir.Durable) (h : dir.Recovers dir') :
    dir'.files = dir.files := by
  funext name
  obtain ⟨entry, hmem, hkept⟩ := h name
  rw [hdurable.settled name, List.mem_singleton] at hmem
  subst hmem
  exact hkept.eq (hdurable.synced name)

variable [DecidableEq Name]

/-- A synced file that was renamed is on disk once the directory is synced. -/
theorem Durable.settle {dir : Directory Doc} (hdurable : dir.Durable) {name : Name} {content : FileContent (Doc name)}
    (hcontent : content.synced = true) :
    Durable { dir.replace name content with replaced := fun _ => [] } := by
  refine ⟨fun _ => rfl, fun other found hfound => ?_⟩
  by_cases hne : other = name
  · subst hne
    simp only [replace, Function.update_self, Option.mem_some] at hfound
    exact hfound ▸ hcontent
  · simp only [replace, Function.update_of_ne hne] at hfound
    exact hdurable.synced other found hfound

/-- While a rename is not on disk, the file is the old one or the new one after a loss of power. -/
theorem Durable.recovers_replace {dir dir' : Directory Doc} (hdurable : dir.Durable) {name : Name}
    {content : FileContent (Doc name)} (hcontent : content.synced = true)
    (h : (dir.replace name content).Recovers dir') :
    dir'.files = dir.files ∨ dir'.files = (dir.replace name content).files := by
  have hother : ∀ other, other ≠ name → dir'.files other = dir.files other := by
    intro other hne
    obtain ⟨entry, hmem, hkept⟩ := h other
    simp only [replace, Function.update_of_ne hne, hdurable.settled other, List.mem_singleton] at hmem
    subst hmem
    exact hkept.eq (hdurable.synced other)
  obtain ⟨entry, hmem, hkept⟩ := h name
  simp only [replace, Function.update_self, hdurable.settled name, List.mem_cons, List.not_mem_nil, or_false] at hmem
  rcases hmem with rfl | rfl
  · refine Or.inr (Function.eq_update_iff.mpr ⟨hkept.eq ?_, hother⟩)
    rintro _ ⟨⟩
    exact hcontent
  · refine Or.inl (funext fun other => ?_)
    by_cases hne : other = name
    · subst hne
      exact hkept.eq (hdurable.synced other)
    · exact hother other hne

end Directory

end ConsensusLab.Foundation
