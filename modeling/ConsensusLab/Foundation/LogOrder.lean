import Mathlib.Data.List.Basic
import Mathlib.Tactic.Common

/-!
# Logs of stamped entries

General facts about lists whose elements carry a term. Positions count from zero, so
"the first `k` positions" are the indices `1, …, k` of a log that counts from one. The
two orders compare how far a log reaches: `EndsAtLeast` against a position holding a
given term, `UpToDate` against another log.
-/

namespace ConsensusLab.Foundation

/-- Entries that know the term they were created in. -/
class Stamped (E : Type*) where
  stamp : E → ℕ

variable {E : Type*}

/-- The first `k` positions of two logs hold the same entries. -/
def AgreeBelow (k : ℕ) (l l' : List E) : Prop :=
  ∀ j < k, l[j]? = l'[j]?

/-- Every log agrees with itself. -/
theorem AgreeBelow.refl (k : ℕ) (l : List E) : AgreeBelow k l l := fun _ _ => rfl

/-- Agreement does not depend on the order of the two logs. -/
theorem AgreeBelow.symm {k : ℕ} {l l' : List E} (h : AgreeBelow k l l') : AgreeBelow k l' l :=
  fun j hj => (h j hj).symm

/-- Agreement passes through a common third log. -/
theorem AgreeBelow.trans {k : ℕ} {l l' l'' : List E} (h : AgreeBelow k l l')
    (h' : AgreeBelow k l' l'') : AgreeBelow k l l'' :=
  fun j hj => (h j hj).trans (h' j hj)

/-- Agreement on more positions gives agreement on fewer. -/
theorem AgreeBelow.mono {k m : ℕ} {l l' : List E} (h : AgreeBelow k l l') (hm : m ≤ k) :
    AgreeBelow m l l' := fun j hj => h j (by omega)

/-- A log agrees with any extension of it as far as it reaches. -/
theorem agreeBelow_append {l : List E} (more : List E) {k : ℕ} (hk : k ≤ l.length) :
    AgreeBelow k (l ++ more) l := fun j hj => List.getElem?_append_left (by omega)

/-- Cutting a log keeps what lies below the cut. -/
theorem agreeBelow_take {l : List E} {k m : ℕ} (hk : k ≤ m) : AgreeBelow k (l.take m) l := by
  intro j hj
  rw [List.getElem?_take, if_pos (by omega)]

/-- Logs agreeing on the first `k` positions have the same first `k` entries. -/
theorem AgreeBelow.take_eq {k : ℕ} {l l' : List E} (h : AgreeBelow k l l') : l.take k = l'.take k := by
  apply List.ext_getElem?
  intro j
  rw [List.getElem?_take, List.getElem?_take]
  split
  · exact h j ‹_›
  · rfl

/-- If two logs agree below `k` and one of them reaches `k`, so does the other. -/
theorem AgreeBelow.le_length {k : ℕ} {l l' : List E} (h : AgreeBelow k l l') (hk : k ≤ l.length) :
    k ≤ l'.length := by
  by_contra hshort
  have hend := h l'.length (by omega)
  rw [List.getElem?_eq_none (Nat.le_refl _), List.getElem?_eq_none_iff] at hend
  omega

/-- What a log holds, every extension of it holds. -/
theorem getElem?_of_initial {l l' : List E} (h : l <+: l') {i : ℕ} {e : E} (he : l[i]? = some e) :
    l'[i]? = some e := by
  obtain ⟨more, rfl⟩ := h
  rw [List.getElem?_append_left (List.getElem?_eq_some_iff.mp he).1, he]

variable [Stamped E]

/-- The term at a position, when the log reaches it. -/
def termAt (l : List E) (j : ℕ) : Option ℕ :=
  l[j]?.map Stamped.stamp

/-- The term of the last entry; an empty log counts as term zero. -/
def lastTerm (l : List E) : ℕ :=
  (l.getLast?.map Stamped.stamp).getD 0

/-- The log ends in a later term than `t`, or in term `t` at position `n` or beyond. -/
def EndsAtLeast (l : List E) (t n : ℕ) : Prop :=
  t < lastTerm l ∨ (lastTerm l = t ∧ n < l.length)

/-- The order in which votes compare logs: later last term first, then length. -/
def UpToDate (l l' : List E) : Prop :=
  lastTerm l' < lastTerm l ∨ (lastTerm l = lastTerm l' ∧ l'.length ≤ l.length)

/-- A log that is at least as up to date reaches whatever the other reaches. -/
theorem EndsAtLeast.of_upToDate {l l' : List E} {t n : ℕ} (h : EndsAtLeast l' t n)
    (hup : UpToDate l l') : EndsAtLeast l t n := by
  unfold EndsAtLeast UpToDate at *
  omega

/-- A position with a term is a position of the log. -/
theorem lt_length_of_termAt {l : List E} {j t : ℕ} (h : termAt l j = some t) : j < l.length := by
  obtain ⟨e, he, _⟩ := Option.map_eq_some_iff.mp h
  exact (List.getElem?_eq_some_iff.mp he).1

/-- Every position of a log has a term. -/
theorem exists_termAt {l : List E} {j : ℕ} (h : j < l.length) : ∃ t, termAt l j = some t :=
  ⟨Stamped.stamp l[j], by rw [termAt, List.getElem?_eq_getElem h, Option.map_some]⟩

/-- Behind a log that was extended by one entry there is nothing but that entry. -/
theorem termAt_concat {l : List E} {e : E} {j t : ℕ} (hj : l.length ≤ j)
    (h : termAt (l ++ [e]) j = some t) : t = Stamped.stamp e := by
  have hlt := lt_length_of_termAt h
  rw [List.length_append, List.length_singleton] at hlt
  obtain rfl : j = l.length := by omega
  rw [termAt, List.getElem?_concat_length] at h
  exact (Option.some.inj h).symm

/-- Positions holding the same entry hold the same term. -/
theorem termAt_congr {l l' : List E} {j : ℕ} (h : l[j]? = l'[j]?) : termAt l j = termAt l' j := by
  rw [termAt, termAt, h]

/-- The last term of a log is the term at its last position. -/
theorem termAt_last {l : List E} (h : 0 < l.length) : termAt l (l.length - 1) = some (lastTerm l) := by
  have hne : l ≠ [] := List.ne_nil_of_length_pos h
  have hlast : l.getLast? = some (l.getLast hne) := List.getLast?_eq_some_getLast hne
  rw [termAt, lastTerm, ← List.getLast?_eq_getElem?, hlast]
  rfl

/-- The last term of the part of a log up to a position is the term there. -/
theorem lastTerm_take_succ {l : List E} {j t : ℕ} (h : termAt l j = some t) : lastTerm (l.take (j + 1)) = t := by
  obtain ⟨e, he, rfl⟩ := Option.map_eq_some_iff.mp h
  rw [lastTerm, List.take_add_one, he, Option.toList_some, List.getLast?_concat]
  rfl

/-- A log that ends at least at some position with a positive term is not empty. -/
theorem EndsAtLeast.length_pos {l : List E} {t n : ℕ} (h : EndsAtLeast l t n) : 0 < l.length := by
  rcases h with hlater | ⟨_, hn⟩
  · by_contra hempty
    have hnil : l = [] := List.eq_nil_of_length_eq_zero (by omega)
    simp [hnil, lastTerm] at hlater
  · omega

/-- Two logs of one length that hold the same last entry end in the same term. -/
theorem lastTerm_eq_of_last {l l' : List E} (hlen : l.length = l'.length)
    (hlast : l[l.length - 1]? = l'[l.length - 1]?) : lastTerm l = lastTerm l' := by
  rw [lastTerm, lastTerm, List.getLast?_eq_getElem?, List.getLast?_eq_getElem?, hlast, hlen]

end ConsensusLab.Foundation
