import ConsensusLab.Foundation.StorageProgram

/-!
# The calls of a program

The calls of a run that take effect, in order: they make the disk what it is, and another
storage can be asked to serve them as well. A disk that keeps a record of its calls lets
`Ensures` speak about them. `Guards` is the condition that each call is made only where a
guard allows it, if all succeed, together with what holds when the program has returned. A run
in which one call fails is split at the end of a part of the program, and `resume` goes on from there.
-/

namespace ConsensusLab.Foundation.StorageProgram

universe u v w

variable {Call : Type u} {A B : Type v} {Disk : Type w}

/-- The calls that take effect in a run. -/
def performed : StorageProgram Call A → List Fate → List Call
  | done _, _ => []
  | fault, _ => []
  | call c next, [] => c :: (next true).performed []
  | call c next, .succeeds :: fates => c :: (next true).performed fates
  | call _ next, .fails :: fates => (next false).performed fates
  | call _ _, .crashes :: _ => []

/-- The effect of a call on a disk that keeps a record of the calls, the last one first. -/
def recording (effect : Call → Disk → Disk) (c : Call) : Disk × List Call → Disk × List Call
  | (disk, record) => (effect c disk, c :: record)

/-- Each call of a sequence is made on a disk on which the guard allows it. -/
def Along (effect : Call → Disk → Disk) (guard : Call → Disk → Prop) : List Call → Disk → Prop
  | [], _ => True
  | c :: rest, disk => guard c disk ∧ Along effect guard rest (effect c disk)

/-- The calls of the program respect the guard, and it ends with `post`, or with `lost` where it
faults. -/
def Guards (effect : Call → Disk → Disk) (guard : Call → Disk → Prop) (lost : Disk → Prop)
    (post : A → Disk → Prop) : StorageProgram Call A → Disk → Prop
  | done a, disk => post a disk
  | fault, disk => lost disk
  | call c next, disk => guard c disk ∧ (next true).Guards effect guard lost post (effect c disk)

variable {effect : Call → Disk → Disk} {guard : Call → Disk → Prop} {lost : Disk → Prop}
  {post : A → Disk → Prop}

/-- A returned value must satisfy the postcondition. -/
@[simp] theorem guards_pure (a : A) (disk : Disk) :
    (pure a : StorageProgram Call A).Guards effect guard lost post disk ↔ post a disk := Iff.rfl

/-- A fault loses the process. -/
@[simp] theorem guards_fault (disk : Disk) :
    (fault : StorageProgram Call A).Guards effect guard lost post disk ↔ lost disk := Iff.rfl

/-- A call must respect the guard. -/
@[simp] theorem guards_call (c : Call) (next : Bool → StorageProgram Call A) (disk : Disk) :
    (call c next).Guards effect guard lost post disk ↔
      guard c disk ∧ (next true).Guards effect guard lost post (effect c disk) := Iff.rfl

/-- A conditional program must respect the guard on both branches. -/
@[simp] theorem guards_ite {c : Prop} [Decidable c] (p q : StorageProgram Call A) (disk : Disk) :
    (if c then p else q).Guards effect guard lost post disk ↔
      (c → p.Guards effect guard lost post disk) ∧ (¬c → q.Guards effect guard lost post disk) := by
  split <;> simp [*]

/-- A sequence respects the guard if its first part does, and ends where the rest does. -/
@[simp] theorem guards_bind {post : B → Disk → Prop} (p : StorageProgram Call A)
    (f : A → StorageProgram Call B) (disk : Disk) :
    (p >>= f).Guards effect guard lost post disk ↔
      p.Guards effect guard lost (fun a => (f a).Guards effect guard lost post) disk := by
  change (p.bind f).Guards effect guard lost post disk ↔ _
  induction p generalizing disk with
  | done | fault => exact Iff.rfl
  | call c next ih => exact and_congr_right fun _ => ih true _

/-- A weaker postcondition is ensured as well. -/
theorem Guards.mono {post' : A → Disk → Prop} {p : StorageProgram Call A} {disk : Disk}
    (h : p.Guards effect guard lost post disk) (hpost : ∀ a d, post a d → post' a d) :
    p.Guards effect guard lost post' disk := by
  induction p generalizing disk with
  | done a => exact hpost a disk h
  | fault => exact h
  | call c next ih => exact ⟨h.1, ih true h.2⟩

/-- The calls of a guarded program respect the guard. -/
theorem Guards.along {p : StorageProgram Call A} {disk : Disk} (h : p.Guards effect guard lost post disk) :
    Along effect guard (p.performed []) disk := by
  induction p generalizing disk with
  | done | fault => trivial
  | call c next ih => exact ⟨h.1, ih true h.2⟩

/-- A guarded program ends well without faults. -/
theorem Guards.exec {p : StorageProgram Call A} {disk : Disk} (h : p.Guards effect guard lost post disk) :
    Judged lost post (p.exec effect [] disk) := by
  induction p generalizing disk with
  | done | fault => exact h
  | call c next ih => exact ih true h.2

/-- Without faults the disk is what the calls make of it. -/
theorem exec_nil_disk (p : StorageProgram Call A) (disk : Disk) :
    (p.exec effect [] disk).2 = (p.performed []).foldl (fun d c => effect c d) disk := by
  induction p generalizing disk with
  | done | fault => rfl
  | call c next ih => exact ih true _

/-- A disk that keeps a record does not change a run, and has recorded the calls that took effect. -/
theorem exec_recording (p : StorageProgram Call A) (fates : List Fate) (disk : Disk) (record : List Call) :
    p.exec (recording effect) fates (disk, record) =
      ((p.exec effect fates disk).1, (p.exec effect fates disk).2, (p.performed fates).reverse ++ record) := by
  induction p generalizing fates disk record with
  | done | fault => rfl
  | call c next ih =>
    match fates with
    | [] => exact (ih true [] _ _).trans (by simp [exec, performed])
    | .succeeds :: rest => exact (ih true rest _ _).trans (by simp [exec, performed])
    | .fails :: rest => exact ih false rest _ _
    | .crashes :: rest => rfl

/-- What a program ensures of the disk whatever calls are recorded, it ensures without a record. -/
theorem Ensures.of_recording {faults : Prop} {p : StorageProgram Call A} {disk : Disk} {record : List Call}
    (h : p.Ensures (recording effect) faults (fun s => lost s.1) (fun a s => post a s.1) (disk, record)) :
    p.Ensures effect faults lost post disk := by
  induction p generalizing disk record with
  | done | fault => exact h
  | call c next ih => exact ⟨fun hf => ⟨(h.1 hf).1, ih false (h.1 hf).2⟩, ih true h.2⟩

/-- The calls of a sequence are those of its parts. -/
theorem performed_bind {p : StorageProgram Call A} {f : A → StorageProgram Call B} {a : A} {disk disk' : Disk}
    (h : p.exec effect [] disk = (.returned a, disk')) :
    (p >>= f).performed [] = p.performed [] ++ (f a).performed [] := by
  change (p.bind f).performed [] = _
  induction p generalizing disk with
  | done => cases h; rfl
  | fault => cases h
  | call c next ih => exact congrArg (c :: ·) (ih true h)

/-- A rest without a call makes no call. -/
theorem performed_map (p : StorageProgram Call A) (g : A → B) (fates : List Fate) :
    (p >>= fun a => pure (g a)).performed fates = p.performed fates := by
  change (p.bind _).performed fates = _
  induction p generalizing fates with
  | done | fault => rfl
  | call c next ih =>
    match fates with
    | [] => exact congrArg (c :: ·) (ih true [])
    | .succeeds :: rest => exact congrArg (c :: ·) (ih true rest)
    | .fails :: rest => exact ih false rest
    | .crashes :: rest => rfl

/-- What a program has returned whose rest makes no call. -/
theorem returned_of_map {p : StorageProgram Call A} {g : A → B} {b : B} {fates : List Fate} {disk disk' : Disk}
    (h : (p >>= fun a => pure (g a)).exec effect fates disk = (.returned b, disk')) :
    ∃ a, p.exec effect fates disk = (.returned a, disk') ∧ g a = b := by
  change (p.bind _).exec effect fates disk = _ at h
  induction p generalizing fates disk with
  | done a => cases h; exact ⟨a, rfl, rfl⟩
  | fault => cases h
  | call c next ih =>
    match fates, h with
    | [], h => exact ih true h
    | .succeeds :: rest, h => exact ih true h
    | .fails :: rest, h => exact ih false h

/-- Go on after the first part of a program, without further faults. -/
def resume (effect : Call → Disk → Disk) (f : A → StorageProgram Call B) : Outcome A × Disk → Outcome B × Disk
  | (.returned a, disk) => (f a).exec effect [] disk
  | (.faulted, disk) => (.faulted, disk)
  | (.crashed, disk) => (.crashed, disk)

/-- Without faults a sequence is run part by part. -/
theorem exec_bind_nil (p : StorageProgram Call A) (f : A → StorageProgram Call B) (disk : Disk) :
    (p >>= f).exec effect [] disk = resume effect f (p.exec effect [] disk) := by
  change (p.bind f).exec effect [] disk = _
  induction p generalizing disk with
  | done | fault => rfl
  | call c next ih => exact ih true _

/-- A call of the first part fails, and the rest is run without faults. -/
theorem exec_bind_of_fails {p : StorageProgram Call A} (f : A → StorageProgram Call B) {k : ℕ}
    (hk : k < (p.performed []).length) (disk : Disk) :
    (p >>= f).exec effect (List.replicate k .succeeds ++ [.fails]) disk =
      resume effect f (p.exec effect (List.replicate k .succeeds ++ [.fails]) disk) := by
  change (p.bind f).exec effect _ disk = _
  induction p generalizing k disk with
  | done | fault => exact absurd hk (Nat.not_lt_zero k)
  | call c next ih =>
    cases k with
    | zero => exact exec_bind_nil (next false) f disk
    | succ k => exact ih true (Nat.lt_of_succ_lt_succ hk) _

/-- When the calls of a first part have succeeded, the rest of a program is answered by the fates behind
them. -/
theorem exec_bind_of_returned {p : StorageProgram Call A} {f : A → StorageProgram Call B} {a : A} {disk disk' : Disk}
    (h : p.exec effect [] disk = (.returned a, disk')) (fates : List Fate) :
    (p >>= f).exec effect (List.replicate (p.performed []).length .succeeds ++ fates) disk = (f a).exec effect fates disk' := by
  change (p.bind f).exec effect _ disk = _
  induction p generalizing disk with
  | done => cases h; rfl
  | fault => cases h
  | call c next ih => exact ih true h

end ConsensusLab.Foundation.StorageProgram
