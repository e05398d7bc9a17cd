import ConsensusLab.Raft.Replication
import Mathlib.Data.List.TakeDrop

/-!
# Nodes and whole logs

A node that has compacted its log still stands for all of it: a snapshot for the first
entries, and the entries that it keeps for the rest. Positions of the whole log count
from zero, so that Raft index `j + 1` is position `j` and the index of a snapshot is the
number of entries that it stands for.
-/

namespace ConsensusLab.Raft

/-- The term of the entry in front of a position; zero at the start of the log. -/
def termBefore (l : List LogEntry) : ℕ → Int
  | 0 => 0
  | p + 1 => (l[p]?.map LogEntry.term).getD 0

/-- The term in front of a position is that of the entry there. -/
theorem termBefore_succ {l : List LogEntry} {p : ℕ} {e : LogEntry} (he : l[p]? = some e) :
    termBefore l (p + 1) = e.term := by
  rw [termBefore, he]
  rfl

/-- A longer log has the entries of a shorter one. -/
theorem getElem?_eq_of_initial {l l' : List LogEntry} (h : l <+: l') {i : ℕ} (hi : i < l.length) : l[i]? = l'[i]? := by
  obtain ⟨rest, rfl⟩ := h
  rw [List.getElem?_append_left hi]

/-- A longer log has the same terms in front of the positions of a shorter one. -/
theorem termBefore_of_initial {l l' : List LogEntry} {p : ℕ} (h : l <+: l') (hp : p ≤ l.length) :
    termBefore l p = termBefore l' p := by
  cases p with
  | zero => rfl
  | succ p => rw [termBefore, termBefore, getElem?_eq_of_initial h hp]

namespace Node

variable {n n' : Node} {l : List LogEntry} {k : ℕ}

/-- The node's snapshot stands for the first `k` entries of a log. -/
structure Covers (n : Node) (l : List LogEntry) (k : ℕ) : Prop where
  covered : k ≤ l.length
  index : n.snapshotIndex = k
  term : n.snapshotTerm = termBefore l k

/-- The node keeps the part of a log behind the first `k` entries. -/
structure Keeps (n : Node) (l : List LogEntry) (k : ℕ) : Prop extends n.Covers l k where
  log : n.log = l.drop k

/-- Log matching: where the node has an entry with the term of the log's, it has the entries of the log up
to there. -/
def Matches (n : Node) (l : List LogEntry) : Prop :=
  ∀ (i : ℕ) own e, n.entryAt (i + 1) = some own → l[i]? = some e → own.term = e.term →
    ∀ j ≤ i, n.snapshotIndex ≤ j → n.entryAt (j + 1) = l[j]?

namespace Keeps

/-- Only three fields of the node matter. -/
theorem keep (h : n.Keeps l k) (hindex : n'.snapshotIndex = n.snapshotIndex)
    (hterm : n'.snapshotTerm = n.snapshotTerm) (hlog : n'.log = n.log) : n'.Keeps l k :=
  ⟨⟨h.covered, hindex.trans h.index, hterm.trans h.term⟩, hlog.trans h.log⟩

/-- The last index is the length of the whole log. -/
theorem lastLogIndex (h : n.Keeps l k) : n.lastLogIndex = l.length := by
  have hk := h.covered
  rw [Node.lastLogIndex, h.index, h.log, List.length_drop]
  omega

/-- The entry at an index behind the snapshot. -/
theorem entryAt (h : n.Keeps l k) {j : ℕ} (hj : k ≤ j) : n.entryAt (j + 1) = l[j]? := by
  have hlt : n.snapshotIndex < (j : Int) + 1 := by
    rw [h.index]
    omega
  have hshift : ((j : Int) + 1 - n.snapshotIndex - 1).toNat = j - k := by
    rw [h.index]
    omega
  rw [entryAt_of_lt hlt, hshift, h.log, List.getElem?_drop, Nat.add_sub_cancel' hj]

/-- The term in front of a position that the node can still name. -/
theorem prevLogTerm (h : n.Keeps l k) {p : ℕ} (hp : k ≤ p) {term : Int}
    (hterm : n.prevLogTerm p = some term) : term = termBefore l p := by
  unfold Node.prevLogTerm at hterm
  split at hterm
  · rename_i hlt
    rw [h.index] at hlt
    obtain ⟨j, rfl⟩ : ∃ j, p = j + 1 := ⟨p - 1, by omega⟩
    rw [Int.natCast_succ, h.entryAt (by omega)] at hterm
    obtain ⟨e, he, rfl⟩ := Option.map_eq_some_iff.mp hterm
    exact (termBefore_succ he).symm
  · obtain rfl : p = k := by
      rename_i hle
      rw [h.index] at hle
      omega
    rw [if_pos h.index.symm] at hterm
    rw [← Option.some.inj hterm, h.term]

end Keeps

end Node

/-- A request for entries taken from a log at some position, with everything behind it. -/
structure AppendEntriesRequest.BuiltFrom (req : AppendEntriesRequest) (l : List LogEntry) (p : ℕ) : Prop where
  position : p ≤ l.length
  prevLogIndex : req.prevLogIndex = p
  prevLogTerm : req.prevLogTerm = termBefore l p
  entries : req.entries = l.drop p

namespace Node

variable {n : Node} {l : List LogEntry} {k : ℕ}

/-- A request can be built from every next index behind the snapshot and up to one behind the log. -/
theorem exists_appendEntriesRequest {next : Int} (hlow : n.snapshotIndex < next) (hhigh : next ≤ n.lastLogIndex + 1) :
    ∃ req, n.appendEntriesRequest next = some req := by
  obtain ⟨term, hterm⟩ : ∃ term, n.prevLogTerm (next - 1) = some term := by
    unfold prevLogTerm
    split
    · obtain ⟨e, he⟩ := exists_entryAt (n := n) (i := next - 1) (by omega) (by omega)
      exact ⟨e.term, by rw [he]; rfl⟩
    · exact ⟨n.snapshotTerm, if_pos (by omega)⟩
  obtain ⟨entries, hentries⟩ : ∃ entries, n.entriesToSend next = some entries := by
    unfold entriesToSend
    split
    · unfold entriesFrom
      unfold lastLogIndex at *
      exact ⟨_, if_neg (by omega)⟩
    · exact ⟨[], rfl⟩
  exact ⟨_, by rw [appendEntriesRequest, hterm, hentries]; rfl⟩

/-- A request for entries that could be built is taken from the whole log. -/
theorem Keeps.appendEntriesRequest (h : n.Keeps l k) {next : Int} (hlow : 1 ≤ next)
    (hnext : next ≤ n.lastLogIndex + 1) {req : AppendEntriesRequest} (hreq : n.appendEntriesRequest next = some req) :
    ∃ p : ℕ, next = p + 1 ∧ k ≤ p ∧ req.BuiltFrom l p ∧ req.term = n.currentTerm ∧
      req.leaderCommit = n.commitIndex := by
  have hk := h.covered
  rw [h.lastLogIndex] at hnext
  obtain ⟨p, rfl⟩ : ∃ p : ℕ, next = p + 1 := ⟨(next - 1).toNat, by omega⟩
  have hple : p ≤ l.length := by omega
  obtain ⟨term, hterm, hrest⟩ := Option.bind_eq_some_iff.mp hreq
  obtain ⟨entries, hentries, hdone⟩ := Option.bind_eq_some_iff.mp hrest
  cases hdone
  rw [show (p : Int) + 1 - 1 = p by omega] at hterm
  have hslice : k ≤ p ∧ entries = l.drop p := by
    rw [Node.entriesToSend, h.lastLogIndex] at hentries
    split at hentries
    · unfold Node.entriesFrom at hentries
      rw [h.index] at hentries
      split at hentries
      · cases hentries
      · have hkp : k ≤ p := by omega
        rw [show ((p : Int) + 1 - k - 1).toNat = p - k by omega, h.log, List.drop_drop,
          Nat.add_sub_cancel' hkp] at hentries
        exact ⟨hkp, (Option.some.inj hentries).symm⟩
    · obtain rfl : p = l.length := by omega
      rw [List.drop_length]
      exact ⟨hk, (Option.some.inj hentries).symm⟩
  refine ⟨p, rfl, hslice.1, ⟨hple, ?_, h.prevLogTerm hslice.1 hterm, hslice.2⟩, rfl, rfl⟩
  change (p : Int) + 1 - 1 = p
  omega

end Node

end ConsensusLab.Raft
