import Mathlib.Data.List.DropRight
import Mathlib.Data.List.TakeWhile

/-!
# Separators and surrounding space

Lists that are cut at a separator, joined with one, and freed of what surrounds them. Parts
without the separator survive being joined and cut again.
-/

namespace ConsensusLab.Foundation

variable {A : Type}

section Cutting

variable [DecidableEq A] (sep : A)

/-- Cut a list at every separator. -/
def separate : List A → List (List A)
  | [] => [[]]
  | a :: rest =>
    if a = sep then [] :: separate rest
    else
      match separate rest with
      | [] => [[a]]
      | part :: parts => (a :: part) :: parts

/-- Join parts with a separator between each two. -/
def joinWith : List (List A) → List A
  | [] => []
  | [part] => part
  | part :: next :: parts => part ++ sep :: joinWith (next :: parts)

/-- Cut a list at its first separator, if it has one. -/
def cutAtFirst : List A → Option (List A × List A)
  | [] => none
  | a :: rest => if a = sep then some ([], rest) else (cutAtFirst rest).map fun (left, right) => (a :: left, right)

variable {sep} {l part left right : List A}

/-- The first part ends at the first separator. -/
theorem separate_append_cons (h : sep ∉ part) (l : List A) :
    separate sep (part ++ sep :: l) = part :: separate sep l := by
  induction part with
  | nil => exact if_pos rfl
  | cons a part ih =>
    obtain ⟨hne, hrest⟩ := List.ne_and_not_mem_of_not_mem_cons h
    rw [List.cons_append, separate, if_neg (Ne.symm hne), ih hrest]

/-- A list without separators is its only part. -/
theorem separate_of_not_mem (h : sep ∉ part) : separate sep part = [part] := by
  induction part with
  | nil => rfl
  | cons a part ih =>
    obtain ⟨hne, hrest⟩ := List.ne_and_not_mem_of_not_mem_cons h
    rw [separate, if_neg (Ne.symm hne), ih hrest]

/-- Parts without separators are found again when they are joined. -/
theorem separate_joinWith {parts : List (List A)} (hparts : parts ≠ []) (h : ∀ part ∈ parts, sep ∉ part) :
    separate sep (joinWith sep parts) = parts := by
  induction parts with
  | nil => exact absurd rfl hparts
  | cons part parts ih =>
    have hpart := h part List.mem_cons_self
    cases parts with
    | nil => exact separate_of_not_mem hpart
    | cons next parts =>
      rw [joinWith, separate_append_cons hpart, ih (List.cons_ne_nil _ _) fun q hq => h q (List.mem_cons_of_mem _ hq)]

/-- No part has a separator. -/
theorem not_mem_of_mem_separate (h : part ∈ separate sep l) : sep ∉ part := by
  induction l generalizing part with
  | nil =>
    cases List.mem_singleton.mp h
    exact List.not_mem_nil
  | cons a rest ih =>
    rw [separate] at h
    split at h
    · rcases List.mem_cons.mp h with rfl | h
      · exact List.not_mem_nil
      · exact ih h
    · rename_i hne
      split at h
      · cases List.mem_singleton.mp h
        exact List.not_mem_cons_of_ne_of_not_mem (Ne.symm hne) List.not_mem_nil
      · rename_i first parts hparts
        rcases List.mem_cons.mp h with rfl | h
        · exact List.not_mem_cons_of_ne_of_not_mem (Ne.symm hne) (ih (hparts ▸ List.mem_cons_self))
        · exact ih (hparts ▸ List.mem_cons_of_mem _ h)

/-- A list is cut where it first has a separator. -/
theorem cutAtFirst_append_cons (h : sep ∉ left) (right : List A) :
    cutAtFirst sep (left ++ sep :: right) = some (left, right) := by
  induction left with
  | nil => exact if_pos rfl
  | cons a left ih =>
    obtain ⟨hne, hrest⟩ := List.ne_and_not_mem_of_not_mem_cons h
    rw [List.cons_append, cutAtFirst, if_neg (Ne.symm hne), ih hrest]
    rfl

/-- What a list is cut into. -/
theorem of_cutAtFirst (h : cutAtFirst sep l = some (left, right)) : l = left ++ sep :: right ∧ sep ∉ left := by
  induction l generalizing left with
  | nil => cases h
  | cons a rest ih =>
    rw [cutAtFirst] at h
    split at h
    · rename_i heq
      cases h
      exact ⟨congrArg (· :: right) heq, List.not_mem_nil⟩
    · rename_i hne
      obtain ⟨⟨left', right'⟩, hcut, heq⟩ := Option.map_eq_some_iff.mp h
      cases heq
      obtain ⟨rfl, hleft⟩ := ih hcut
      exact ⟨rfl, List.not_mem_cons_of_ne_of_not_mem (Ne.symm hne) hleft⟩

/-- A list that is not cut has no separator. -/
theorem not_mem_of_cutAtFirst (h : cutAtFirst sep l = none) : sep ∉ l := by
  induction l with
  | nil => exact List.not_mem_nil
  | cons a rest ih =>
    rw [cutAtFirst] at h
    split at h
    · cases h
    · rename_i hne
      exact List.not_mem_cons_of_ne_of_not_mem (Ne.symm hne) (ih (Option.map_eq_none_iff.mp h))

end Cutting

section Trimming

variable (space : A → Bool)

/-- A list without the space around it. -/
def trim (l : List A) : List A :=
  (l.dropWhile space).rdropWhile space

/-- There is no space around the list. -/
structure Trimmed (l : List A) : Prop where
  head : ∀ a ∈ l.head?, space a = false
  last : ∀ a ∈ l.getLast?, space a = false

variable {space} {l l' : List A}

/-- There is no space around nothing. -/
theorem trimmed_nil : Trimmed space [] where
  head _ ha := by cases ha
  last _ ha := by cases ha

/-- A trimmed list stays as it is. -/
theorem Trimmed.trim_eq (h : Trimmed space l) : trim space l = l := by
  have hhead : l.dropWhile space = l := by
    cases l with
    | nil => rfl
    | cons a rest => exact List.dropWhile_cons_of_neg (by simp [h.head a rfl])
  rw [trim, hhead, List.rdropWhile_eq_self_iff]
  intro hne
  simp [h.last _ (List.getLast?_eq_some_getLast hne)]

/-- Trimming leaves no space around the list. -/
theorem trimmed_trim (l : List A) : Trimmed space (trim space l) where
  head a ha := by
    -- what is dropped at the end leaves the first element in place
    have hhead : (l.dropWhile space).head? = some a := by
      obtain ⟨rest, hrest⟩ := List.rdropWhile_prefix space (l.dropWhile space)
      rw [← hrest, List.head?_append, show (List.rdropWhile space (l.dropWhile space)).head? = some a from ha]
      rfl
    have hnot := List.head?_dropWhile_not space l
    rwa [hhead] at hnot
  last a ha := by
    have hne : trim space l ≠ [] := fun h => by simp [h] at ha
    have hlast := List.rdropWhile_last_not space (l.dropWhile space) hne
    rw [List.getLast?_eq_some_getLast hne] at ha
    cases ha
    exact Bool.eq_false_iff.mpr hlast

/-- Trimming adds nothing. -/
theorem mem_of_mem_trim {a : A} (h : a ∈ trim space l) : a ∈ l :=
  (List.dropWhile_sublist space).mem ((List.rdropWhile_prefix space _).mem h)

/-- A list is trimmed if its two ends are. -/
theorem Trimmed.append (h : Trimmed space l) (h' : Trimmed space l') (hne : l ≠ []) (hne' : l' ≠ [])
    (middle : List A) : Trimmed space (l ++ middle ++ l') where
  head a ha := by
    rw [List.append_assoc, List.head?_append_of_ne_nil _ hne] at ha
    exact h.head a ha
  last a ha := by
    rw [List.getLast?_append_of_ne_nil _ hne'] at ha
    exact h'.last a ha

/-- Parts without space around them are joined to a list without space around it. -/
theorem trimmed_joinWith {sep : A} {parts : List (List A)} (h : ∀ part ∈ parts, Trimmed space part ∧ part ≠ []) :
    Trimmed space (joinWith sep parts) ∧ (parts ≠ [] → joinWith sep parts ≠ []) := by
  induction parts with
  | nil => exact ⟨trimmed_nil, fun h => absurd rfl h⟩
  | cons part parts ih =>
    obtain ⟨htrimmed, hne⟩ := h part List.mem_cons_self
    obtain ⟨ihtrimmed, ihne⟩ := ih fun q hq => h q (List.mem_cons_of_mem _ hq)
    cases parts with
    | nil => exact ⟨htrimmed, fun _ => hne⟩
    | cons next parts =>
      have happend := htrimmed.append ihtrimmed hne (ihne (List.cons_ne_nil _ _)) [sep]
      rw [List.append_assoc] at happend
      exact ⟨happend, fun _ => by simp [joinWith]⟩

end Trimming

end ConsensusLab.Foundation
