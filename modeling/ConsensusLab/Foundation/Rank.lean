import Mathlib.Data.List.Sort

/-!
# Order statistics of a list

The `k`-th largest element of a list, found by sorting it. It is the greatest bound that
`k` elements reach, which turns a count of elements above a bound into one comparison.
-/

namespace ConsensusLab.Foundation

variable {A : Type*} [LinearOrder A]

/-- The number of elements that reach a bound. -/
def reaching (a : A) (l : List A) : ℕ :=
  l.countP (a ≤ ·)

/-- The `k`-th largest element, counted from one. -/
def nthLargest (k : ℕ) (l : List A) : Option A :=
  (l.insertionSort (· ≥ ·))[k - 1]?

/-- One more element reaches a bound below it. -/
theorem reaching_cons_of_le {a b : A} (h : a ≤ b) (l : List A) : reaching a (b :: l) = reaching a l + 1 :=
  List.countP_cons_of_pos (by simpa using h)

/-- No element reaches a bound above all of them. -/
theorem reaching_eq_zero {a : A} {l : List A} (h : ∀ b ∈ l, b < a) : reaching a l = 0 :=
  List.countP_eq_zero.mpr fun b hb => by simpa using h b hb

/-- In a descending list the elements that reach a bound come first. -/
theorem le_iff_lt_reaching {l : List A} (hl : l.Pairwise (· ≥ ·)) {i : ℕ} {m : A} (hm : l[i]? = some m)
    (a : A) : a ≤ m ↔ i < reaching a l := by
  induction l generalizing i with
  | nil => simp at hm
  | cons b rest ih =>
    obtain ⟨hfirst, hrest⟩ := List.pairwise_cons.mp hl
    by_cases ha : a ≤ b
    · rw [reaching_cons_of_le ha]
      cases i with
      | zero =>
        obtain rfl : b = m := by simpa using hm
        simp [ha]
      | succ i =>
        rw [ih hrest (by simpa using hm)]
        omega
    · have hbelow : ∀ c ∈ b :: rest, c < a := by
        intro c hc
        rcases List.mem_cons.mp hc with rfl | hc
        · exact not_le.mp ha
        · exact (hfirst c hc).trans_lt (not_le.mp ha)
      rw [reaching_eq_zero hbelow]
      simpa using hbelow m (List.mem_of_getElem? hm)

/-- A list has a `k`-th largest element for each `k` up to its length. -/
theorem exists_nthLargest {k : ℕ} {l : List A} (hpos : 0 < k) (hk : k ≤ l.length) :
    ∃ m, nthLargest k l = some m := by
  have hlt : k - 1 < (l.insertionSort (· ≥ ·)).length := by
    rw [List.length_insertionSort]
    omega
  exact ⟨_, List.getElem?_eq_getElem hlt⟩

/-- The bounds up to the `k`-th largest element are those that `k` elements reach. -/
theorem le_nthLargest_iff {k : ℕ} {l : List A} {m : A} (hpos : 0 < k) (hm : nthLargest k l = some m) (a : A) :
    a ≤ m ↔ k ≤ reaching a l := by
  have hsorted : (l.insertionSort (· ≥ ·)).Pairwise (· ≥ ·) := List.pairwise_insertionSort _ l
  have hcount : reaching a (l.insertionSort (· ≥ ·)) = reaching a l :=
    (List.perm_insertionSort _ l).countP_eq _
  rw [le_iff_lt_reaching hsorted hm, hcount]
  omega

/-- The `k`-th largest element is one of the list. -/
theorem mem_of_nthLargest {k : ℕ} {l : List A} {m : A} (hm : nthLargest k l = some m) : m ∈ l :=
  (List.mem_insertionSort _).mp (List.mem_of_getElem? hm)

end ConsensusLab.Foundation
