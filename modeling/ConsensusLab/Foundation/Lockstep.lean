import ConsensusLab.Foundation.StorageProgram

/-!
# Programs that go in step

Two programs go in step if they make their calls at the same points, whatever the calls
are, and go on in step after every answer. Under the same fates they then end in the
same way, with related values, each on a disk of its own.
-/

namespace ConsensusLab.Foundation

universe u v w

variable {Call : Type u} {A B A' B' : Type v} {Disk : Type w}

namespace StorageProgram

/-- The programs call storage at the same points and return related values. -/
def InStep (R : A → B → Prop) : StorageProgram Call A → StorageProgram Call B → Prop
  | done a, done b => R a b
  | fault, fault => True
  | call _ next, call _ next' => ∀ ok, (next ok).InStep R (next' ok)
  | _, _ => False

variable {R : A → B → Prop} {S : A' → B' → Prop}

/-- Two programs in step that are continued in step. -/
theorem InStep.bind {p : StorageProgram Call A} {q : StorageProgram Call B} {f : A → StorageProgram Call A'}
    {g : B → StorageProgram Call B'} (h : p.InStep R q) (hnext : ∀ a b, R a b → (f a).InStep S (g b)) :
    (p >>= f).InStep S (q >>= g) := by
  change (p.bind f).InStep S (q.bind g)
  induction p generalizing q with
  | done a =>
    cases q with
    | done b => exact hnext a b h
    | fault | call => exact h.elim
  | fault =>
    cases q with
    | fault => trivial
    | done | call => exact h.elim
  | call c next ih =>
    cases q with
    | call c' next' => exact fun ok => ih ok (h ok)
    | done | fault => exact h.elim

/-- Two calls whose answer is then handled in step. -/
theorem InStep.call_bind {A B : Type} {R : A → B → Prop} (c c' : Call) {f : Bool → StorageProgram Call A}
    {g : Bool → StorageProgram Call B} (h : ∀ ok, (f ok).InStep R (g ok)) :
    ((call c done : StorageProgram Call Bool) >>= f).InStep R ((call c' done : StorageProgram Call Bool) >>= g) := h

/-- Two conditional programs that decide alike. -/
theorem InStep.ite {c c' : Prop} [Decidable c] [Decidable c'] {p p' : StorageProgram Call A}
    {q q' : StorageProgram Call B} (hiff : c ↔ c') (hpos : c → p.InStep R q) (hneg : ¬c → p'.InStep R q') :
    (if c then p else p').InStep R (if c' then q else q') := by
  by_cases hc : c
  · rw [if_pos hc, if_pos (hiff.mp hc)]
    exact hpos hc
  · rw [if_neg hc, if_neg (mt hiff.mpr hc)]
    exact hneg hc

/-- Two executions that ended in the same way. -/
inductive SameEnd (R : A → B → Prop) : Outcome A → Outcome B → Prop
  | returned {a : A} {b : B} (h : R a b) : SameEnd R (.returned a) (.returned b)
  | faulted : SameEnd R .faulted .faulted
  | crashed : SameEnd R .crashed .crashed

/-- Under the same fates programs in step end in the same way. -/
theorem InStep.exec {p : StorageProgram Call A} {q : StorageProgram Call B} (h : p.InStep R q)
    (effect : Call → Disk → Disk) (fates : List Fate) (disk disk' : Disk) :
    SameEnd R (p.exec effect fates disk).1 (q.exec effect fates disk').1 := by
  induction p generalizing q fates disk disk' with
  | done a =>
    cases q with
    | done b => exact .returned h
    | fault | call => exact h.elim
  | fault =>
    cases q with
    | fault => exact .faulted
    | done | call => exact h.elim
  | call c next ih =>
    cases q with
    | done | fault => exact h.elim
    | call c' next' =>
      match fates with
      | [] => exact ih true (h true) [] _ _
      | .succeeds :: rest => exact ih true (h true) rest _ _
      | .fails :: rest => exact ih false (h false) rest _ _
      | .crashes :: rest => exact .crashed

end StorageProgram

end ConsensusLab.Foundation
