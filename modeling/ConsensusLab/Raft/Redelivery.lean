import ConsensusLab.Raft.AcceptedEntries
import ConsensusLab.Raft.WholeLogs

/-!
# Requests that arrive twice or late

A request for entries may be delivered again, or behind a later one of the same leader.
What the accepted one has left behind is enough for the other to be accepted as well,
and then it changes nothing and does not touch storage. For the same request that is so
whatever the node had before. For an older one it rests on log matching: the check at
`PrevLogIndex` compares one term, and the entries in front of it are taken on trust.
-/

namespace ConsensusLab.Raft

open Foundation

/-- A request reaches to the end of the log that it was built from. -/
theorem AppendEntriesRequest.BuiltFrom.end_eq {req : AppendEntriesRequest} {l : List LogEntry} {p : ℕ}
    (h : req.BuiltFrom l p) : req.prevLogIndex + req.entries.length = l.length := by
  have := h.position
  rw [h.prevLogIndex, h.entries, List.length_drop]
  omega

namespace Node

variable {n n' : Node} {req : AppendEntriesRequest} {l : List LogEntry} {k : ℕ}

/-- The request is accepted, and neither the node nor what is stored changes, whatever storage would do. -/
def Absorbs (n : Node) (req : AppendEntriesRequest) : Prop :=
  ∀ fates disk, (n.handleAppendEntries req).run fates disk = (.returned (n, .ok n.acceptance), disk)

/-- A request of the current term that brings nothing new is absorbed. -/
theorem absorbs_of_holds (hhealthy : n.degraded = false) (hfollower : n.asFollower = n)
    (hterm : req.term = n.currentTerm) (hprev : n.PrevMatches req)
    (hheld : n.Holds (req.prevLogIndex + 1) req.entries) (hcommit : req.leaderCommit ≤ n.commitIndex) :
    n.Absorbs req := by
  have hsame : { n with role := .follower }.resetElectionTimeout = n := hfollower
  have happend : n.appendFromLeader req = pure (n, .ok n.acceptance) := by
    simp only [appendFromLeader, hsame, checkPrevLog_of_matches hprev]
    change (n.mergeEntries (req.prevLogIndex + 1) req.entries >>= _) = _
    rw [mergeEntries_of_holds hheld]
    change (n.followCommit req.leaderCommit >>= _) = _
    rw [followCommit, if_neg (by omega)]
    rfl
  intro fates disk
  rw [handleAppendEntries, if_neg (by rw [hhealthy]; exact Bool.false_ne_true), if_neg (by omega),
    if_neg (by omega), happend]
  rfl

namespace Accepts

variable (h : n.Accepts req n')
include h

/-- The entries of an accepted request are held. -/
theorem holds : n'.Holds (req.prevLogIndex + 1) req.entries :=
  h.log.holds h.snapshotIndex (by have := h.prev.reached; omega)

/-- An accepted request leaves at least its entries in the log. -/
theorem le_lastLogIndex : req.prevLogIndex + req.entries.length ≤ n'.lastLogIndex := by
  have hreached := h.prev.reached
  rcases h.lastLogIndex with ⟨hheld, hlast⟩ | ⟨_, hlast⟩
  · have := hheld.le_lastLogIndex (by omega)
    omega
  · omega

/-- The preceding entry of an accepted request stays where it is. -/
theorem prevMatches : n'.PrevMatches req where
  reached := by
    have := h.le_lastLogIndex
    omega
  entry := fun hbehind => by
    obtain ⟨own, hown, hterm⟩ := h.prev.entry (h.snapshotIndex ▸ hbehind)
    have hreached := h.prev.reached
    exact ⟨own, (h.log.entryAt_below h.snapshotIndex (by omega) (by omega)).mpr hown, hterm⟩
  boundary := fun hat => by
    rw [h.snapshotTerm]
    exact h.prev.boundary (h.snapshotIndex ▸ hat)

/-- A commit index that the request covers is reached. -/
theorem leaderCommit_le (hcommit : req.leaderCommit ≤ req.prevLogIndex + req.entries.length) :
    req.leaderCommit ≤ n'.commitIndex := by
  have hlast := h.le_lastLogIndex
  rw [h.commit]
  split <;> omega

/-- Behind the snapshot and up to the end of the sender's log, the node now has the entries of that log. -/
theorem entryAt_eq {l₀ : List LogEntry} {p : ℕ} (hbuilt : req.BuiltFrom l₀ p) (hinitial : l₀ <+: l)
    (hmatches : n.Matches l) {j : ℕ} (hlow : n.snapshotIndex ≤ j) (hhigh : j < l₀.length) :
    n'.entryAt (j + 1) = l[j]? := by
  have hget := @getElem?_eq_of_initial _ _ hinitial
  have hreached := h.prev.reached
  have hprev := hbuilt.prevLogIndex
  obtain ⟨e, he⟩ : ∃ e, l[j]? = some e := ⟨l₀[j], by rw [← hget hhigh, List.getElem?_eq_getElem hhigh]⟩
  rw [he]
  by_cases hj : j < p
  · -- in front of the request's entries log matching tells what the node has
    obtain ⟨q, rfl⟩ : ∃ q, p = q + 1 := ⟨p - 1, by omega⟩
    have hq := hbuilt.position
    obtain ⟨own, hown, hterm⟩ := h.prev.entry (by omega)
    have hlast : l[q]? = some l₀[q] := by rw [← hget hq, List.getElem?_eq_getElem hq]
    rw [hprev, Int.natCast_succ] at hown
    rw [hbuilt.prevLogTerm, termBefore_of_initial hinitial hbuilt.position, termBefore_succ hlast] at hterm
    have hheld := hmatches q own l₀[q] hown hlast hterm j (by omega) hlow
    rw [he] at hheld
    exact (h.log.entryAt_below h.snapshotIndex (by omega) (by omega)).mpr hheld
  · have hsent : req.entries[j - p]? = some e := by
      rw [hbuilt.entries, List.getElem?_drop, Nat.add_sub_cancel' (by omega), hget hhigh, he]
    have hindex : req.prevLogIndex + 1 + ((j - p : ℕ) : Int) = j + 1 := by omega
    have hnew := h.log.entryAt_sent h.snapshotIndex (by omega) hsent
    rw [hindex, h.snapshotIndex] at hnew
    rcases hnew with hcovered | hentry | ⟨own, hold, hown, hterm⟩
    · omega
    · exact hentry
    · have hsame := hmatches j own e hold he hterm j (Nat.le_refl j) hlow
      rw [hown, ← hold, hsame, he]

end Accepts

/-- Whatever the node had before, an accepted request is absorbed when it comes again. -/
theorem Accepts.absorbs_again (h : n.Accepts req n')
    (hcommit : req.leaderCommit ≤ req.prevLogIndex + req.entries.length) : n'.Absorbs req :=
  absorbs_of_holds h.degraded h.follower h.currentTerm.symm h.prevMatches h.holds (h.leaderCommit_le hcommit)

section Older

variable {l₁ l₂ : List LogEntry} {p₁ p₂ : ℕ} {r₁ r₂ : AppendEntriesRequest} (h : n.Accepts r₂ n')
  (hmatches : n.Matches l) (h₁ : r₁.BuiltFrom l₁ p₁) (h₂ : r₂.BuiltFrom l₂ p₂) (hparts : l₁ <+: l₂)
  (hinitial : l₂ <+: l)
include h hmatches h₁ h₂ hparts hinitial

/-- The preceding entry of an older request is one that the node now has. -/
theorem Accepts.prevMatches_older (hsnap : n.Covers l k) : n'.PrevMatches r₁ := by
  have hle := h.le_lastLogIndex
  have hend := h₂.end_eq
  have hindex : n'.snapshotIndex = k := h.snapshotIndex.trans hsnap.index
  have hlen := hparts.length_le
  have hget := @getElem?_eq_of_initial _ _ (hparts.trans hinitial)
  have hposition := h₁.position
  have hprev := h₁.prevLogIndex
  refine ⟨by omega, fun hbehind => ?_, fun hat => ?_⟩
  · obtain ⟨q, rfl⟩ : ∃ q, p₁ = q + 1 := ⟨p₁ - 1, by omega⟩
    have hq : q < l₁.length := hposition
    have he : l[q]? = some l₁[q] := by rw [← hget hq, List.getElem?_eq_getElem hq]
    have hown := h.entryAt_eq h₂ hinitial hmatches (j := q) (by rw [← h.snapshotIndex]; omega) (by omega)
    refine ⟨l₁[q], by rw [hprev, Int.natCast_succ, hown, he], ?_⟩
    rw [h₁.prevLogTerm, termBefore_of_initial (hparts.trans hinitial) h₁.position, termBefore_succ he]
  · obtain rfl : p₁ = k := by omega
    rw [h₁.prevLogTerm, h.snapshotTerm, hsnap.term, termBefore_of_initial (hparts.trans hinitial) h₁.position]

/-- So are its entries, where the snapshot does not cover them. -/
theorem Accepts.holds_older : n'.Holds (r₁.prevLogIndex + 1) r₁.entries := by
  have hlen := hparts.length_le
  have hget := @getElem?_eq_of_initial _ _ (hparts.trans hinitial)
  intro j e he
  obtain ⟨hlt, _⟩ := List.getElem?_eq_some_iff.mp he
  rw [h₁.entries, List.length_drop] at hlt
  rw [h₁.prevLogIndex, show (p₁ : Int) + 1 + j = ((p₁ + j : ℕ) : Int) + 1 by omega]
  by_cases hcovered : ((p₁ + j : ℕ) : Int) + 1 ≤ n'.snapshotIndex
  · exact Or.inl hcovered
  · have hown := h.entryAt_eq h₂ hinitial hmatches (j := p₁ + j) (by rw [← h.snapshotIndex]; omega) (by omega)
    rw [h₁.entries, List.getElem?_drop, hget (by omega)] at he
    exact Or.inr ⟨e, hown.trans he, rfl⟩

end Older

end Node

/-- The log of a leader of term 4, with an entry of term 1 and one of term 3. -/
def leaderLog : List LogEntry :=
  [{ term := 1, type := entryCommand, command := [1] }, { term := 3, type := entryCommand, command := [2] }]

/-- The request that the leader builds from the first entries of its log, from a position on. -/
def requestFrom (l : List LogEntry) (p : ℕ) : AppendEntriesRequest where
  term := 4
  leaderID := "a"
  prevLogIndex := p
  prevLogTerm := termBefore l p
  entries := l.drop p
  leaderCommit := 0

/-- A follower with the first entry of the leader's log and one of another term behind it. -/
def overlapping : Node :=
  { Node.blank "b" ["a", "c"] with
    currentTerm := 2
    log := [{ term := 1, type := entryCommand, command := [1] }, { term := 2, type := entryCommand, command := [3] }] }

/-- Its log matches the leader's: they agree up to the only index where they have the same term. -/
theorem overlapping_matches : overlapping.Matches leaderLog := by
  intro i own e hown he hterm j hj _
  obtain ⟨_, hhigh, _⟩ := Node.entryAt_eq_some hown
  have hlast : overlapping.lastLogIndex = 2 := rfl
  obtain rfl | rfl : i = 0 ∨ i = 1 := by omega
  · obtain rfl : j = 0 := by omega
    rfl
  · cases hown
    cases he
    cases hterm

end ConsensusLab.Raft
