import Mathlib.Tactic.Common

/-!
# Programs over fallible storage

A program is a tree of storage calls: each call is answered by whether it succeeded,
and the program goes on from there, returns a value, or faults. Everything the program
keeps in memory is an ordinary value, so a crash needs no model of its own: it ends
the program and leaves the disk as the calls before it made it.

`Ensures` computes what must hold before a program so that each way through it ends
well: a postcondition for the value it returns, and a crash condition at every point
where the process can be lost. Without faults the same predicate describes the one run
in which every call succeeds.
-/

namespace ConsensusLab.Foundation

universe u v w

/-- What becomes of one storage call. -/
inductive Fate
  | succeeds
  | fails
  | crashes
  deriving DecidableEq, Repr

/-- A program that calls storage. -/
inductive StorageProgram (Call : Type u) (A : Type v) : Type (max u v)
  | done (a : A)
  | call (c : Call) (next : Bool → StorageProgram Call A)
  | fault

/-- How a program ended. -/
inductive Outcome (A : Type v)
  | returned (a : A)
  | faulted
  | crashed
  deriving DecidableEq, Repr

variable {Call : Type u} {A B : Type v} {Disk : Type w}

namespace StorageProgram

/-- Continue with the returned value. -/
def bind : StorageProgram Call A → (A → StorageProgram Call B) → StorageProgram Call B
  | done a, f => f a
  | call c next, f => call c fun ok => (next ok).bind f
  | fault, _ => fault

instance : Monad (StorageProgram Call) where
  pure := done
  bind := bind

/-- Run a program. The fates answer its calls in order, and calls beyond the list succeed. -/
def exec (effect : Call → Disk → Disk) : StorageProgram Call A → List Fate → Disk → Outcome A × Disk
  | done a, _, disk => (.returned a, disk)
  | fault, _, disk => (.faulted, disk)
  | call c next, [], disk => (next true).exec effect [] (effect c disk)
  | call c next, .succeeds :: fates, disk => (next true).exec effect fates (effect c disk)
  | call _ next, .fails :: fates, disk => (next false).exec effect fates disk
  | call _ _, .crashes :: _, disk => (.crashed, disk)

/-- Every run from this disk ends with `post`, or with `lost` where the process is lost. Calls fail
and crash only if `faults` holds. -/
def Ensures (effect : Call → Disk → Disk) (faults : Prop) (lost : Disk → Prop) (post : A → Disk → Prop) :
    StorageProgram Call A → Disk → Prop
  | done a, disk => post a disk
  | fault, disk => lost disk
  | call c next, disk =>
    (faults → lost disk ∧ (next false).Ensures effect faults lost post disk) ∧
      (next true).Ensures effect faults lost post (effect c disk)

variable {effect : Call → Disk → Disk} {faults : Prop} {lost : Disk → Prop} {post : A → Disk → Prop}

/-- A returned value must satisfy the postcondition. -/
@[simp] theorem ensures_pure (a : A) (disk : Disk) :
    (pure a : StorageProgram Call A).Ensures effect faults lost post disk ↔ post a disk := Iff.rfl

/-- A call either succeeds with its effect, or fails or crashes without one. -/
@[simp] theorem ensures_call (c : Call) (next : Bool → StorageProgram Call A) (disk : Disk) :
    (call c next).Ensures effect faults lost post disk ↔
      (faults → lost disk ∧ (next false).Ensures effect faults lost post disk) ∧
        (next true).Ensures effect faults lost post (effect c disk) := Iff.rfl

/-- A fault loses the process. -/
@[simp] theorem ensures_fault (disk : Disk) :
    (fault : StorageProgram Call A).Ensures effect faults lost post disk ↔ lost disk := Iff.rfl

/-- A conditional program must end well on both branches. -/
@[simp] theorem ensures_ite {c : Prop} [Decidable c] (p q : StorageProgram Call A) (disk : Disk) :
    (if c then p else q).Ensures effect faults lost post disk ↔
      (c → p.Ensures effect faults lost post disk) ∧ (¬c → q.Ensures effect faults lost post disk) := by
  split <;> simp [*]

/-- The condition of a sequence is that of its first part, with the rest as postcondition. -/
@[simp] theorem ensures_bind {post : B → Disk → Prop} (p : StorageProgram Call A)
    (f : A → StorageProgram Call B) (disk : Disk) :
    (p >>= f).Ensures effect faults lost post disk ↔
      p.Ensures effect faults lost (fun a => (f a).Ensures effect faults lost post) disk := by
  change (p.bind f).Ensures effect faults lost post disk ↔ _
  induction p generalizing disk with
  | done | fault => exact Iff.rfl
  | call c next ih => exact and_congr (imp_congr_right fun _ => and_congr_right fun _ => ih false _) (ih true _)

/-- A weaker postcondition and a weaker crash condition are ensured as well. -/
theorem Ensures.mono {lost' : Disk → Prop} {post' : A → Disk → Prop} {p : StorageProgram Call A}
    {disk : Disk} (h : p.Ensures effect faults lost post disk) (hlost : ∀ d, lost d → lost' d)
    (hpost : ∀ a d, post a d → post' a d) : p.Ensures effect faults lost' post' disk := by
  induction p generalizing disk with
  | done a => exact hpost a disk h
  | fault => exact hlost disk h
  | call c next ih => exact ⟨fun hf => ⟨hlost _ (h.1 hf).1, ih false (h.1 hf).2⟩, ih true h.2⟩

/-- Two postconditions ensured separately are ensured together. -/
theorem Ensures.and {lost' : Disk → Prop} {post' : A → Disk → Prop} {p : StorageProgram Call A}
    {disk : Disk} (h : p.Ensures effect faults lost post disk)
    (h' : p.Ensures effect faults lost' post' disk) :
    p.Ensures effect faults (fun d => lost d ∧ lost' d) (fun a d => post a d ∧ post' a d) disk := by
  induction p generalizing disk with
  | done | fault => exact ⟨h, h'⟩
  | call c next ih =>
    exact ⟨fun hf => ⟨⟨(h.1 hf).1, (h'.1 hf).1⟩, ih false (h.1 hf).2 (h'.1 hf).2⟩, ih true h.2 h'.2⟩

/-- How an execution that ends in this way is judged. -/
def Judged (lost : Disk → Prop) (post : A → Disk → Prop) : Outcome A × Disk → Prop
  | (.returned a, disk) => post a disk
  | (.faulted, disk) => lost disk
  | (.crashed, disk) => lost disk

/-- What a program ensures holds after each of its executions. -/
theorem Ensures.exec {p : StorageProgram Call A} {disk : Disk}
    (h : p.Ensures effect faults lost post disk) (fates : List Fate) (hfates : faults ∨ fates = []) :
    Judged lost post (p.exec effect fates disk) := by
  induction p generalizing disk fates with
  | done | fault => exact h
  | call c next ih =>
    match fates, hfates with
    | [], _ => exact ih true h.2 [] (Or.inr rfl)
    | .succeeds :: rest, Or.inl hf => exact ih true h.2 rest (Or.inl hf)
    | .fails :: rest, Or.inl hf => exact ih false (h.1 hf).2 rest (Or.inl hf)
    | .crashes :: rest, Or.inl hf => exact (h.1 hf).1

/-- What a program ensures holds of what it returns. -/
theorem Ensures.of_returned {p : StorageProgram Call A} {disk disk' : Disk} {a : A} {fates : List Fate}
    (h : p.Ensures effect faults lost post disk) (hfates : faults ∨ fates = [])
    (hrun : p.exec effect fates disk = (.returned a, disk')) : post a disk' := by
  have hjudged := h.exec fates hfates
  rw [hrun] at hjudged
  exact hjudged

/-- A program whose rest returns without a call returns in the same run. -/
theorem exec_bind_of_pure {p : StorageProgram Call A} {f : A → StorageProgram Call B} {a : A} {b : B}
    {disk disk' : Disk} {fates : List Fate} (hrun : p.exec effect fates disk = (.returned a, disk'))
    (hrest : f a = pure b) : (p >>= f).exec effect fates disk = (.returned b, disk') := by
  change (p.bind f).exec effect fates disk = _
  induction p generalizing fates disk with
  | done a' =>
    cases hrun
    rw [StorageProgram.bind, hrest]
    rfl
  | fault => cases hrun
  | call c next ih =>
    match fates with
    | [] => exact ih true hrun
    | .succeeds :: _ => exact ih true hrun
    | .fails :: _ => exact ih false hrun
    | .crashes :: _ => cases hrun

/-- A program that cannot be lost returns while storage works, and returns what it ensures. -/
theorem Ensures.returned {p : StorageProgram Call A} {disk : Disk}
    (h : p.Ensures effect faults (fun _ => False) post disk) :
    ∃ a disk', p.exec effect [] disk = (.returned a, disk') ∧ post a disk' := by
  have hjudged := h.exec [] (Or.inr rfl)
  rcases hrun : p.exec effect [] disk with ⟨a | _ | _, disk'⟩ <;> rw [hrun] at hjudged
  · exact ⟨a, disk', rfl, hjudged⟩
  · exact hjudged.elim
  · exact hjudged.elim

/-- Whatever storage answers, the program does not fault and returns a value with the property. -/
def Total (post : A → Prop) : StorageProgram Call A → Prop
  | done a => post a
  | fault => False
  | call _ next => ∀ ok, (next ok).Total post

section Total

variable {post : A → Prop}

/-- A returned value must have the property. -/
@[simp] theorem total_pure (a : A) : (pure a : StorageProgram Call A).Total post ↔ post a := Iff.rfl

/-- A program must not fault. -/
@[simp] theorem total_fault : (fault : StorageProgram Call A).Total post ↔ False := Iff.rfl

/-- A conditional program must return on both branches. -/
@[simp] theorem total_ite {c : Prop} [Decidable c] (p q : StorageProgram Call A) :
    (if c then p else q).Total post ↔ (c → p.Total post) ∧ (¬c → q.Total post) := by
  split <;> simp [*]

/-- A sequence returns if its first part does, with a value from which the rest does. -/
@[simp] theorem total_bind {post : B → Prop} (p : StorageProgram Call A) (f : A → StorageProgram Call B) :
    (p >>= f).Total post ↔ p.Total (fun a => (f a).Total post) := by
  change (p.bind f).Total post ↔ _
  induction p with
  | done | fault => exact Iff.rfl
  | call c next ih => exact forall_congr' fun ok => ih ok

/-- A weaker property is returned as well. -/
theorem Total.mono {post' : A → Prop} {p : StorageProgram Call A} (h : p.Total post) (hpost : ∀ a, post a → post' a) :
    p.Total post' := by
  induction p with
  | done a => exact hpost a h
  | fault => exact h
  | call c next ih => exact fun ok => ih ok (h ok)

/-- What a total program returns has the property. -/
theorem Total.of_returned {p : StorageProgram Call A} (h : p.Total post) {fates : List Fate} {disk disk' : Disk} {a : A}
    (hrun : p.exec effect fates disk = (.returned a, disk')) : post a := by
  induction p generalizing fates disk with
  | done a' =>
    cases hrun
    exact h
  | fault => exact h.elim
  | call c next ih =>
    match fates, hrun with
    | [], hrun => exact ih true (h true) hrun
    | .succeeds :: _, hrun => exact ih true (h true) hrun
    | .fails :: _, hrun => exact ih false (h false) hrun
    | .crashes :: _, hrun => cases hrun

/-- A total program does not fault. -/
theorem Total.not_faulted {p : StorageProgram Call A} (h : p.Total post) (fates : List Fate) (disk : Disk) :
    (p.exec effect fates disk).1 ≠ .faulted := by
  induction p generalizing fates disk with
  | done a => nofun
  | fault => exact h.elim
  | call c next ih =>
    match fates with
    | [] => exact ih true (h true) [] _
    | .succeeds :: rest => exact ih true (h true) rest _
    | .fails :: rest => exact ih false (h false) rest _
    | .crashes :: rest => nofun

end Total

/-- Without a failing call a program ends as it does without faults, unless it crashes on the way. -/
theorem exec_of_not_fails (p : StorageProgram Call A) {fates : List Fate} (h : .fails ∉ fates) (disk : Disk) :
    p.exec effect fates disk = p.exec effect [] disk ∨ (p.exec effect fates disk).1 = .crashed := by
  induction p generalizing fates disk with
  | done | fault => exact Or.inl rfl
  | call c next ih =>
    match fates with
    | [] => exact Or.inl rfl
    | .succeeds :: rest => exact ih true (fun hmem => h (List.mem_cons_of_mem _ hmem)) _
    | .fails :: rest => exact absurd List.mem_cons_self h
    | .crashes :: rest => exact Or.inr rfl

end StorageProgram

end ConsensusLab.Foundation
