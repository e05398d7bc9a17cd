import ConsensusLab.Raft.WholeLogs
import ConsensusLab.Foundation.LogOrder

/-!
# A node's log as a window on the whole log

A node keeps the entries behind its snapshot and, of the rest, only the term of the
last compacted one. Read against the whole log, every operation on the kept part is the
same operation on the whole: Raft index `j + 1` is position `j`, and the snapshot's
index is the number of positions it hides.
-/

namespace ConsensusLab.Raft

open Foundation

/-- An entry of the whole log: terms are natural numbers there. -/
structure Entry where
  term : ℕ
  type : EntryType
  command : Bytes
  deriving DecidableEq, Repr

instance : Stamped Entry := ⟨Entry.term⟩

/-- The entry as a node keeps it. -/
def Entry.kept (e : Entry) : LogEntry where
  term := e.term
  type := e.type
  command := e.command

/-- The term in front of a position of the log as it is kept. -/
theorem termBefore_kept {l : List Entry} {p : ℕ} (hp : p ≤ l.length) :
    termBefore (l.map Entry.kept) p = lastTerm (l.take p) := by
  cases p with
  | zero => rfl
  | succ p =>
    have he : l[p]? = some l[p] := List.getElem?_eq_getElem hp
    rw [termBefore, List.getElem?_map, he, lastTerm_take_succ (by rw [termAt, he]; rfl)]
    rfl

/-- The node keeps the part of `l` behind its first `k` positions. -/
structure Node.Windows (n : Node) (l : List Entry) (k : ℕ) : Prop where
  covered : k ≤ l.length
  index : n.snapshotIndex = k
  term : n.snapshotTerm = lastTerm (l.take k)
  log : n.log = (l.drop k).map Entry.kept

namespace Node.Windows

variable {n n' : Node} {l : List Entry} {k : ℕ}

/-- Only three fields of the node matter. -/
theorem keep (h : n.Windows l k) (hindex : n'.snapshotIndex = n.snapshotIndex)
    (hterm : n'.snapshotTerm = n.snapshotTerm) (hlog : n'.log = n.log) : n'.Windows l k :=
  ⟨h.covered, hindex.trans h.index, hterm.trans h.term, hlog.trans h.log⟩

/-- The whole log as the node keeps it. -/
theorem keeps (h : n.Windows l k) : n.Keeps (l.map Entry.kept) k where
  covered := by
    rw [List.length_map]
    exact h.covered
  index := h.index
  term := by rw [h.term, termBefore_kept h.covered]
  log := by rw [h.log, List.map_drop]

/-- The last index is the length of the whole log. -/
theorem lastLogIndex (h : n.Windows l k) : n.lastLogIndex = l.length := by
  rw [h.keeps.lastLogIndex, List.length_map]

/-- The last term is that of the whole log. -/
theorem lastLogTerm (h : n.Windows l k) : n.lastLogTerm = lastTerm l := by
  rw [Node.lastLogTerm, h.log, List.getLast?_map]
  by_cases hempty : l.length ≤ k
  · rw [List.drop_eq_nil_of_le hempty]
    simp only [List.getLast?_nil, Option.map_none]
    rw [h.term, List.take_of_length_le hempty]
  · have hne : l ≠ [] := by
      rintro rfl
      exact hempty (Nat.zero_le _)
    rw [List.getLast?_drop, if_neg hempty, lastTerm, List.getLast?_eq_some_getLast hne]
    rfl

/-- The entry at an index behind the snapshot. -/
theorem entryAt (h : n.Windows l k) {j : ℕ} (hj : k ≤ j) :
    n.entryAt (j + 1) = l[j]?.map Entry.kept := by
  rw [h.keeps.entryAt hj, List.getElem?_map]

/-- An entry that the node finds is at a position of the whole log. -/
theorem of_entryAt (h : n.Windows l k) {i : Int} {e : LogEntry} (hi : n.entryAt i = some e) :
    ∃ (j : ℕ) (whole : Entry), i = j + 1 ∧ k ≤ j ∧ l[j]? = some whole ∧ e = whole.kept := by
  obtain ⟨hlow, _, _⟩ := entryAt_eq_some hi
  rw [h.index] at hlow
  obtain ⟨j, rfl⟩ : ∃ j : ℕ, i = j + 1 := ⟨(i - 1).toNat, by omega⟩
  have hj : k ≤ j := by omega
  rw [h.entryAt hj] at hi
  obtain ⟨whole, hwhole, rfl⟩ := Option.map_eq_some_iff.mp hi
  exact ⟨j, whole, rfl, hj, hwhole, rfl⟩

/-- The term of an entry that the node finds. -/
theorem termAt_of_entryAt (h : n.Windows l k) {j : ℕ} {e : LogEntry} (hi : n.entryAt (j + 1) = some e) :
    ∃ t : ℕ, termAt l j = some t ∧ e.term = t := by
  obtain ⟨j', whole, hj, _, hwhole, rfl⟩ := h.of_entryAt hi
  obtain rfl : j = j' := by omega
  exact ⟨whole.term, by rw [termAt, hwhole]; rfl, rfl⟩

/-- Adding entries. -/
theorem append (h : n.Windows l k) (more : List Entry) (hindex : n'.snapshotIndex = n.snapshotIndex)
    (hterm : n'.snapshotTerm = n.snapshotTerm) (hlog : n'.log = n.log ++ more.map Entry.kept) :
    n'.Windows (l ++ more) k where
  covered := by
    have := h.covered
    rw [List.length_append]
    omega
  index := hindex.trans h.index
  term := by rw [hterm, h.term, List.take_append_of_le_length h.covered]
  log := by rw [hlog, h.log, List.drop_append_of_le_length h.covered, List.map_append]

/-- Cutting the log behind the snapshot. -/
theorem take (h : n.Windows l k) {j : ℕ} (hj : k ≤ j) (hindex : n'.snapshotIndex = n.snapshotIndex)
    (hterm : n'.snapshotTerm = n.snapshotTerm) (hlog : n'.log = n.log.take (j - k)) :
    n'.Windows (l.take j) k where
  covered := by
    have := h.covered
    rw [List.length_take]
    omega
  index := hindex.trans h.index
  term := by rw [hterm, h.term, List.take_take, Nat.min_eq_left hj]
  log := by rw [hlog, h.log, ← List.map_take, List.drop_take]

/-- Hiding more of the log behind a snapshot of it. -/
theorem compact (h : n.Windows l k) {j : ℕ} {e : LogEntry} (hentry : n.entryAt (j + 1) = some e)
    (hindex : n'.snapshotIndex = j + 1) (hterm : n'.snapshotTerm = e.term)
    (hlog : n'.log = n.log.drop (j + 1 - k)) : n'.Windows l (j + 1) := by
  obtain ⟨j', whole, hj, hk, hwhole, rfl⟩ := h.of_entryAt hentry
  obtain rfl : j = j' := by omega
  obtain ⟨hlt, _⟩ := List.getElem?_eq_some_iff.mp hwhole
  refine ⟨hlt, hindex, ?_, ?_⟩
  · rw [hterm, lastTerm_take_succ (by rw [termAt, hwhole]; rfl)]
    rfl
  · rw [hlog, h.log, ← List.map_drop, List.drop_drop, Nat.add_sub_cancel' (by omega)]

/-- Replacing the log up to a later position by another one. -/
theorem replace (h : n.Windows l k) {lead : List Entry} {j : ℕ} (hj : k ≤ j) (hlead : j ≤ lead.length)
    (hindex : n'.snapshotIndex = j) (hterm : n'.snapshotTerm = lastTerm (lead.take j))
    (hlog : n'.log = n.log.drop (j - k)) : n'.Windows (lead.take j ++ l.drop j) j := by
  have hlen : (lead.take j).length = j := List.length_take_of_le hlead
  refine ⟨?_, hindex, ?_, ?_⟩
  · rw [List.length_append, hlen]
    omega
  · rw [hterm, List.take_left' hlen]
  · rw [hlog, h.log, ← List.map_drop, List.drop_drop, Nat.add_sub_cancel' hj, List.drop_left' hlen]

/-- A request for entries that could be built carries the entries from its position to the end. -/
theorem appendEntriesRequest (h : n.Windows l k) {next : Int} (hnext : next ≤ n.lastLogIndex + 1)
    {req : AppendEntriesRequest} (hreq : n.appendEntriesRequest (max 1 next) = some req) :
    ∃ p : ℕ, k ≤ p ∧ p ≤ l.length ∧ req.term = n.currentTerm ∧ req.prevLogIndex = p ∧
      req.prevLogTerm = lastTerm (l.take p) ∧ req.entries = (l.drop p).map Entry.kept ∧
      req.leaderCommit = n.commitIndex := by
  have hlast := h.lastLogIndex
  obtain ⟨p, _, hkp, hbuilt, hterm, hcommit⟩ := h.keeps.appendEntriesRequest (by omega) (by omega) hreq
  have hp : p ≤ l.length := List.length_map Entry.kept ▸ hbuilt.position
  exact ⟨p, hkp, hp, hterm, hbuilt.prevLogIndex, hbuilt.prevLogTerm.trans (termBefore_kept hp),
    hbuilt.entries.trans List.map_drop.symm, hcommit⟩

end Node.Windows

end ConsensusLab.Raft
