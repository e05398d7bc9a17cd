import ConsensusLab.Foundation.Lockstep
import ConsensusLab.Raft.Redelivery
import ConsensusLab.Raft.ReplicationRules
import ConsensusLab.Raft.Server

/-!
# Compaction and the protocol

A node that has compacted its log up to a committed index answers candidates and
leaders as it would have without. The two nodes run different code on one request: what
one compares with an entry the other compares with its snapshot or takes for granted.
Since leaders have the committed entries, both come to the same answer, and they call
storage at the same points.
-/

namespace ConsensusLab.Raft

open Foundation StorageProgram

/-- The part of a reply that its receiver goes by: its term, and whether it is a vote or a success. The
conflict hints of a rejection are not part of it. -/
def Reply.verdict : Reply → Int × Bool
  | .vote resp => (resp.term, resp.voteGranted)
  | .append resp => (resp.term, resp.success)
  | .install resp => (resp.term, true)

/-- Both calls failed alike, or their replies have the same verdict. -/
def SameVerdict {R : Type} (wrap : R → Reply) (a b : Except RaftError R) : Prop :=
  (a.map wrap).map Reply.verdict = (b.map wrap).map Reply.verdict

namespace Node

variable {n n' n₀ : Node} {snap : Snapshot} {i : Int}

/-- The node still has the entries that the first one had up to the snapshot's index, one of which the
snapshot ends with. -/
structure Retains (n₀ : Node) (snap : Snapshot) (n : Node) : Prop where
  low : n₀.snapshotIndex < snap.lastIncludedIndex
  last : ∃ e, n₀.entryAt snap.lastIncludedIndex = some e ∧ e.term = snap.lastIncludedTerm
  index : n.snapshotIndex = n₀.snapshotIndex
  term : n.snapshotTerm = n₀.snapshotTerm
  entry : ∀ i ≤ snap.lastIncludedIndex, n.entryAt i = n₀.entryAt i

namespace Retains

variable (h : n₀.Retains snap n)
include h

/-- Only the log and the snapshot's position matter. -/
theorem keep (hindex : n'.snapshotIndex = n.snapshotIndex) (hterm : n'.snapshotTerm = n.snapshotTerm)
    (hlog : n'.log = n.log) : n₀.Retains snap n' where
  low := h.low
  last := h.last
  index := hindex.trans h.index
  term := hterm.trans h.term
  entry i hi := (entryAt_congr hindex hlog i).trans (h.entry i hi)

/-- The snapshot lies behind the start of the log. -/
theorem snapshotIndex_lt : n.snapshotIndex < snap.lastIncludedIndex :=
  h.index ▸ h.low

/-- The entry at the snapshot's index. -/
theorem exists_last : ∃ e, n.entryAt snap.lastIncludedIndex = some e ∧ e.term = snap.lastIncludedTerm := by
  rw [h.entry _ (Int.le_refl _)]
  exact h.last

/-- The snapshot lies within the log. -/
theorem le_lastLogIndex : snap.lastIncludedIndex ≤ n.lastLogIndex := by
  obtain ⟨e, he, _⟩ := h.exists_last
  exact (entryAt_eq_some he).2.1

/-- Compacting the log keeps the last index. -/
theorem lastLogIndex : (n.compactTo snap).lastLogIndex = n.lastLogIndex := by
  have hlow := h.snapshotIndex_lt
  have hhigh := h.le_lastLogIndex
  unfold Node.lastLogIndex at hhigh ⊢
  simp only [compactTo, List.length_drop]
  omega

/-- Compacting the log keeps the entries behind the snapshot. -/
theorem entryAt (hi : snap.lastIncludedIndex < i) : (n.compactTo snap).entryAt i = n.entryAt i := by
  refine Option.ext fun e => ?_
  have hdrop : (n.compactTo snap).entryAt i = some e ↔ n.entryAt i = some e ∧ snap.lastIncludedIndex < i :=
    entryAt_drop (Int.le_of_lt h.snapshotIndex_lt) rfl
  rw [hdrop]
  exact ⟨fun he => he.1, fun he => ⟨he, hi⟩⟩

/-- Compacting the log keeps the last term. -/
theorem lastLogTerm : (n.compactTo snap).lastLogTerm = n.lastLogTerm := by
  obtain ⟨e, he, hterm⟩ := h.exists_last
  obtain ⟨hlow, hhigh, hget⟩ := entryAt_eq_some he
  unfold Node.lastLogIndex at hhigh
  simp only [Node.lastLogTerm, compactTo, List.getLast?_drop]
  by_cases hempty : n.log.length ≤ (snap.lastIncludedIndex - n.snapshotIndex).toNat
  · -- nothing is left behind the snapshot, so the last entry is the one it ends with
    have hlast : n.log.getLast? = some e := by
      rw [List.getLast?_eq_getElem?, ← hget]
      congr 1
      omega
    rw [if_pos hempty, hlast]
    exact hterm.symm
  · have hne : n.log ≠ [] := by
      intro hnil
      rw [hnil] at hempty
      exact hempty (Nat.zero_le _)
    rw [if_neg hempty, List.getLast?_eq_some_getLast hne]

/-- Compacting the log does not change how a candidate's log compares. -/
theorem upToDate (req : RequestVoteRequest) : (n.compactTo snap).upToDate req ↔ n.upToDate req := by
  rw [Node.upToDate, Node.upToDate, h.lastLogIndex, h.lastLogTerm]

end Retains

/-- The results of a section on a node and on the compacted node. -/
def Matched {R : Type} (n₀ : Node) (snap : Snapshot) (agree : R → R → Prop) (r r' : Node × R) : Prop :=
  n₀.Retains snap r.1 ∧ r'.1 = r.1.compactTo snap ∧ agree r.2 r'.2

/-- Both nodes decide alike on a vote. -/
theorem castVote_inStep (h : n₀.Retains snap n) (req : RequestVoteRequest) :
    (n.castVote req).InStep (Matched n₀ snap (· = ·)) ((n.compactTo snap).castVote req) := by
  unfold castVote
  refine InStep.ite (and_congr Iff.rfl (h.upToDate req).symm) (fun _ => ?_) fun _ => ⟨h, rfl, rfl⟩
  exact InStep.call_bind _ _ fun ok => InStep.ite Iff.rfl (fun _ => ⟨h.keep rfl rfl rfl, rfl, rfl⟩)
    fun _ => ⟨h.keep rfl rfl rfl, rfl, rfl⟩

/-- Both nodes answer a vote request alike. -/
theorem handleRequestVote_inStep (h : n₀.Retains snap n) (req : RequestVoteRequest) :
    (n.handleRequestVote req).InStep (Matched n₀ snap (· = ·)) ((n.compactTo snap).handleRequestVote req) := by
  unfold handleRequestVote
  refine InStep.ite Iff.rfl (fun _ => ⟨h, rfl, rfl⟩) fun _ => InStep.ite Iff.rfl (fun _ => ⟨h, rfl, rfl⟩) fun _ =>
    InStep.ite Iff.rfl (fun _ => ?_) fun _ => castVote_inStep h req
  refine InStep.call_bind _ _ fun ok => InStep.ite Iff.rfl (fun _ => ?_) fun _ => ⟨h.keep rfl rfl rfl, rfl, rfl⟩
  exact castVote_inStep (n := { n.adoptTerm req.term with role := .follower }) (h.keep rfl rfl rfl) req

/-- A leader's log has the entries that the node had up to an index, and the term of its snapshot. -/
structure AgreesWith (n : Node) (l : List LogEntry) (index : Int) : Prop where
  start : 0 ≤ n.snapshotIndex
  reached : index ≤ l.length
  boundary : n.snapshotTerm = termBefore l n.snapshotIndex.toNat
  entry : ∀ j : ℕ, n.snapshotIndex ≤ j → j < index → n.entryAt (j + 1) = l[j]?

/-- Less has to agree up to an earlier index. -/
theorem AgreesWith.mono {l : List LogEntry} {index index' : Int} (h : n.AgreesWith l index) (hle : index' ≤ index) :
    n.AgreesWith l index' :=
  ⟨h.start, Int.le_trans hle h.reached, h.boundary, fun j hlow hj => h.entry j hlow (by omega)⟩

section Append

variable {req : AppendEntriesRequest} {l : List LogEntry} {p : ℕ} (h : n₀.Retains snap n)
  (hagrees : n₀.AgreesWith l snap.lastIncludedIndex) (hbuilt : req.BuiltFrom l p)
include h hagrees

/-- The node has the leader's entries up to the snapshot. -/
theorem Retains.entryAt_eq {j : ℕ} (hlow : n.snapshotIndex ≤ j) (hj : j < snap.lastIncludedIndex) :
    ∃ e, n.entryAt (j + 1) = some e ∧ l[j]? = some e := by
  have hreached := hagrees.reached
  have hlt : j < l.length := by omega
  have he : l[j]? = some l[j] := List.getElem?_eq_getElem hlt
  refine ⟨l[j], ?_, he⟩
  rw [h.entry _ (by omega), hagrees.entry j (by rw [← h.index]; exact hlow) hj, he]

include hbuilt

/-- The term in front of a request from behind the start of the log and up to the snapshot's index. -/
theorem Retains.prevLogTerm (hlow : n.snapshotIndex < req.prevLogIndex)
    (hhigh : req.prevLogIndex ≤ snap.lastIncludedIndex) :
    ∃ e, n.entryAt req.prevLogIndex = some e ∧ e.term = req.prevLogTerm := by
  have hstart := h.index ▸ hagrees.start
  have hprev := hbuilt.prevLogIndex
  obtain ⟨q, rfl⟩ : ∃ q, p = q + 1 := ⟨p - 1, by omega⟩
  obtain ⟨e, hentry, he⟩ := h.entryAt_eq hagrees (j := q) (by omega) (by omega)
  refine ⟨e, ?_, ?_⟩
  · rw [hprev, Int.natCast_succ, hentry]
  · rw [hbuilt.prevLogTerm, termBefore_succ he]

/-- A request from up to the snapshot's index fits both nodes. -/
theorem Retains.prevMatches (hp : req.prevLogIndex ≤ snap.lastIncludedIndex) :
    n.PrevMatches req ∧ (n.compactTo snap).PrevMatches req := by
  have hprev := hbuilt.prevLogIndex
  have hlast := h.le_lastLogIndex
  refine ⟨⟨by omega, fun hbehind => h.prevLogTerm hagrees hbuilt hbehind hp, fun hat => ?_⟩,
    ⟨?_, fun hbehind => ?_, fun hat => ?_⟩⟩
  · rw [hbuilt.prevLogTerm, h.term, hagrees.boundary, ← h.index, ← hat, hprev, Int.toNat_natCast]
  · rw [h.lastLogIndex]
    omega
  · change snap.lastIncludedIndex < req.prevLogIndex at hbehind
    omega
  · -- the snapshot ends with the entry that precedes the request
    change req.prevLogIndex = snap.lastIncludedIndex at hat
    obtain ⟨e, hentry, hterm⟩ := h.prevLogTerm hagrees hbuilt (hat ▸ h.snapshotIndex_lt) hp
    obtain ⟨e', hentry', hterm'⟩ := h.exists_last
    rw [hat, hentry'] at hentry
    cases hentry
    rw [← hterm, hterm']
    rfl

/-- Both nodes check the preceding entry alike. -/
theorem checkPrevLog_inStep : (n.checkPrevLog req).InStep
    (fun a b => (a = none ∧ b = none) ∨ ∃ c t c' t', a = some (n.rejection c t) ∧ b = some (n.rejection c' t'))
    ((n.compactTo snap).checkPrevLog req) := by
  rcases Int.lt_or_le snap.lastIncludedIndex req.prevLogIndex with hbehind | hcovered
  · have hlow := h.snapshotIndex_lt
    unfold checkPrevLog
    rw [h.lastLogIndex, h.entryAt hbehind]
    refine InStep.ite Iff.rfl (fun _ => Or.inr ⟨_, _, _, _, rfl, rfl⟩) fun _ => ?_
    rw [if_pos (by omega), if_pos (show req.prevLogIndex > (n.compactTo snap).snapshotIndex from hbehind)]
    cases n.entryAt req.prevLogIndex with
    | none => trivial
    | some prev =>
      exact InStep.ite Iff.rfl (fun _ => Or.inr ⟨_, _, _, _, rfl, rfl⟩) fun _ => Or.inl ⟨rfl, rfl⟩
  · obtain ⟨hfits, hfits'⟩ := h.prevMatches hagrees hbuilt hcovered
    rw [checkPrevLog_of_matches hfits, checkPrevLog_of_matches hfits']
    exact Or.inl ⟨rfl, rfl⟩

end Append

/-- Extending the log keeps the entries up to the snapshot and commutes with compacting. -/
theorem Retains.extended (h : n₀.Retains snap n) (more : List LogEntry) :
    n₀.Retains snap (n.extended more) ∧ (n.compactTo snap).extended more = (n.extended more).compactTo snap := by
  have hlow := h.snapshotIndex_lt
  have hhigh := h.le_lastLogIndex
  refine ⟨⟨h.low, h.last, h.index, h.term, fun i hi => ?_⟩, ?_⟩
  · rw [← h.entry i hi]
    refine Option.ext fun e => ⟨fun he => ?_, entryAt_extended⟩
    rcases of_entryAt_extended he with hold | ⟨j, hj, _⟩
    · exact hold
    · omega
  · unfold Node.lastLogIndex at hhigh
    simp only [Node.extended, compactTo]
    rw [List.drop_append_of_le_length (by omega)]

/-- Cutting the log behind the snapshot keeps the entries up to it and commutes with compacting. -/
theorem Retains.cut (h : n₀.Retains snap n) {index : Int} (hindex : snap.lastIncludedIndex < index) :
    n₀.Retains snap (n.cut index) ∧ (n.compactTo snap).cut index = (n.cut index).compactTo snap := by
  have hlow := h.snapshotIndex_lt
  refine ⟨⟨h.low, h.last, h.index, h.term, fun i hi => ?_⟩, ?_⟩
  · rw [← h.entry i hi]
    refine Option.ext fun e => ?_
    rw [entryAt_cut n (by omega)]
    exact ⟨fun he => he.1, fun he => ⟨he, by omega⟩⟩
  · simp only [Node.cut, compactTo, List.drop_take]
    congr 2
    omega

/-- Both nodes merge entries alike if the entries up to the snapshot are held. -/
theorem mergeEntries_inStep (h : n₀.Retains snap n) {entries : List LogEntry} {index : Int}
    (hheld : ∀ (j : ℕ) e, entries[j]? = some e → index + j ≤ snap.lastIncludedIndex →
      index + j ≤ n.snapshotIndex ∨ ∃ own, n.entryAt (index + j) = some own ∧ own.term = e.term) :
    (n.mergeEntries index entries).InStep (Matched n₀ snap (· = ·))
      ((n.compactTo snap).mergeEntries index entries) := by
  have hlow := h.snapshotIndex_lt
  have hhigh := h.le_lastLogIndex
  induction entries generalizing index with
  | nil => exact ⟨h, rfl, rfl⟩
  | cons entry rest ih =>
    have hnext : (n.mergeEntries (index + 1) rest).InStep (Matched n₀ snap (· = ·))
        ((n.compactTo snap).mergeEntries (index + 1) rest) := by
      refine ih fun j e he hj => ?_
      rw [show index + 1 + (j : Int) = index + ((j + 1 : ℕ) : Int) by omega] at hj ⊢
      exact hheld (j + 1) e he hj
    rcases Int.lt_or_le snap.lastIncludedIndex index with hbehind | hcovered
    · have hentry := h.entryAt hbehind
      unfold mergeEntries
      rw [if_neg (by omega), if_neg (show ¬index ≤ (n.compactTo snap).snapshotIndex from Int.not_le.mpr hbehind),
        h.lastLogIndex, hentry]
      refine InStep.ite Iff.rfl (fun _ => ?_) fun hend => ?_
      · exact InStep.call_bind _ _ fun ok => InStep.ite Iff.rfl
          (fun _ => ⟨(h.extended _).1, (h.extended _).2, rfl⟩) fun _ => ⟨h, rfl, rfl⟩
      · have hslice := logTo_of_lt (n := n) (i := index) (by omega) (by omega)
        have hslice' := logTo_of_lt (n := n.compactTo snap) hbehind (by rw [h.lastLogIndex]; omega)
        cases n.entryAt index with
        | none => trivial
        | some own =>
          simp only [hslice, hslice']
          refine InStep.ite Iff.rfl (fun _ => hnext) fun _ => InStep.call_bind _ _ fun ok =>
            InStep.ite Iff.rfl (fun _ => ?_) fun _ => ⟨h, rfl, rfl⟩
          obtain ⟨hcut, hsame⟩ := h.cut hbehind
          refine InStep.call_bind _ _ fun ok' => InStep.ite Iff.rfl (fun _ => ?_) fun _ => ⟨hcut, hsame, rfl⟩
          obtain ⟨hboth, hsame'⟩ := hcut.extended (entry :: rest)
          exact ⟨hboth, (congrArg (Node.extended · (entry :: rest)) hsame).trans hsame', rfl⟩
    · have hskip : n.mergeEntries index (entry :: rest) = n.mergeEntries (index + 1) rest := by
        rcases hheld 0 entry rfl (by omega) with hhidden | ⟨own, hown, hterm⟩
        · rw [mergeEntries, if_pos (by omega)]
        · rw [Int.natCast_zero, Int.add_zero] at hown
          have hlt := (entryAt_eq_some hown).1
          rw [mergeEntries, if_neg (by omega), if_neg (by omega), hown]
          exact if_pos hterm
      have hskip' : (n.compactTo snap).mergeEntries index (entry :: rest) =
          (n.compactTo snap).mergeEntries (index + 1) rest := if_pos hcovered
      rw [hskip, hskip']
      exact hnext

/-- Both nodes follow a commit index alike. -/
theorem followCommit_inStep (h : n₀.Retains snap n) (leaderCommit : Int) :
    (n.followCommit leaderCommit).InStep (Matched n₀ snap (· = ·)) ((n.compactTo snap).followCommit leaderCommit) := by
  unfold followCommit
  rw [h.lastLogIndex]
  refine InStep.ite Iff.rfl (fun _ => ?_) fun _ => ⟨h, rfl, rfl⟩
  exact InStep.call_bind _ _ fun ok => InStep.ite Iff.rfl (fun _ => ⟨h.keep rfl rfl rfl, rfl, rfl⟩)
    fun _ => ⟨h.keep rfl rfl rfl, rfl, rfl⟩

section Append

variable {req : AppendEntriesRequest} {l : List LogEntry} {p : ℕ} (h : n₀.Retains snap n)
  (hagrees : n₀.AgreesWith l snap.lastIncludedIndex) (hbuilt : req.BuiltFrom l p)
include h hagrees hbuilt

/-- Both nodes take entries from a leader alike. -/
theorem appendFromLeader_inStep :
    (n.appendFromLeader req).InStep (Matched n₀ snap (SameVerdict .append))
      ((n.compactTo snap).appendFromLeader req) := by
  have hfollowing : n₀.Retains snap n.asFollower := h.keep rfl rfl rfl
  refine (checkPrevLog_inStep hfollowing hagrees hbuilt).bind fun a b hcheck => ?_
  rcases hcheck with ⟨rfl, rfl⟩ | ⟨c, t, c', t', rfl, rfl⟩
  · refine (mergeEntries_inStep hfollowing fun j e he hj => ?_).bind fun r r' hmerged => ?_
    · rw [hbuilt.entries, List.getElem?_drop] at he
      rw [hbuilt.prevLogIndex, show (p : Int) + 1 + j = ((p + j : ℕ) : Int) + 1 by omega] at hj ⊢
      rcases Int.lt_or_le n.snapshotIndex (((p + j : ℕ) : Int) + 1) with hlt | hle
      · obtain ⟨own, hown, hl⟩ := hfollowing.entryAt_eq hagrees (j := p + j) (Int.lt_add_one_iff.mp hlt) (by omega)
        rw [he] at hl
        cases hl
        exact Or.inr ⟨e, hown, rfl⟩
      · exact Or.inl hle
    · obtain ⟨merged, result⟩ := r
      obtain ⟨merged', result'⟩ := r'
      obtain ⟨hretains, rfl, rfl⟩ := hmerged
      cases result with
      | error e => exact ⟨hretains, rfl, rfl⟩
      | ok =>
        refine (followCommit_inStep hretains req.leaderCommit).bind fun f f' hfollowed => ?_
        obtain ⟨final, outcome⟩ := f
        obtain ⟨final', outcome'⟩ := f'
        obtain ⟨hfinal, rfl, rfl⟩ := hfollowed
        cases outcome with
        | error e => exact ⟨hfinal, rfl, rfl⟩
        | ok => exact ⟨hfinal, rfl, rfl⟩
  · exact ⟨hfollowing, rfl, rfl⟩

/-- Both nodes answer a leader's entries alike. -/
theorem handleAppendEntries_inStep :
    (n.handleAppendEntries req).InStep (Matched n₀ snap (SameVerdict .append))
      ((n.compactTo snap).handleAppendEntries req) := by
  unfold handleAppendEntries
  refine InStep.ite Iff.rfl (fun _ => ⟨h, rfl, rfl⟩) fun _ => InStep.ite Iff.rfl (fun _ => ⟨h, rfl, rfl⟩) fun _ =>
    InStep.ite Iff.rfl (fun _ => ?_) fun _ => appendFromLeader_inStep h hagrees hbuilt
  refine InStep.call_bind _ _ fun ok => InStep.ite Iff.rfl (fun _ => ?_) fun _ => ⟨h.keep rfl rfl rfl, rfl, rfl⟩
  exact appendFromLeader_inStep (n := n.adoptTerm req.term) (h.keep rfl rfl rfl) hagrees hbuilt

end Append

/-- Serve requests one after the other, each under its own fates, until the process is lost: the verdicts,
and the node if it is still there. -/
def serve : Node → PersistentState → List (Request × List Fate) → List (Except RaftError (Int × Bool)) × Option Node
  | n, _, [] => ([], some n)
  | n, disk, (req, fates) :: rest =>
    match (n.handle req).run fates disk with
    | (.returned (n', answer), disk') =>
      (answer.map Reply.verdict :: (n'.serve disk' rest).1, (n'.serve disk' rest).2)
    | _ => ([], none)

/-- Candidates may ask anything; leaders have the entries that the node has committed. -/
def AgreesWithSender (n : Node) : Request → Prop
  | .vote _ => True
  | .append req => ∃ l p, req.BuiltFrom l p ∧ n.AgreesWith l n.commitIndex
  | .install _ => False

/-- Both nodes serve a request alike. -/
theorem handle_inStep (h : n₀.Retains snap n) (hcommit : snap.lastIncludedIndex ≤ n₀.commitIndex) {req : Request}
    (hreq : n₀.AgreesWithSender req) :
    (n.handle req).InStep (Matched n₀ snap fun a b => a.map Reply.verdict = b.map Reply.verdict)
      ((n.compactTo snap).handle req) := by
  cases req with
  | vote req =>
    refine (handleRequestVote_inStep h req).bind fun r r' hr => ⟨hr.1, hr.2.1, ?_⟩
    rw [hr.2.2]
  | append req =>
    obtain ⟨l, p, hbuilt, hagrees⟩ := hreq
    exact (handleAppendEntries_inStep h (hagrees.mono hcommit) hbuilt).bind fun r r' hr => ⟨hr.1, hr.2.1, hr.2.2⟩
  | install req => exact hreq.elim

/-- What compaction up to an index leaves as it was. -/
structure SameAbove (index : Int) (n m : Node) : Prop where
  currentTerm : n.currentTerm = m.currentTerm
  votedFor : n.votedFor = m.votedFor
  commitIndex : n.commitIndex = m.commitIndex
  lastLogIndex : n.lastLogIndex = m.lastLogIndex
  lastLogTerm : n.lastLogTerm = m.lastLogTerm
  entryAt : ∀ i, index < i → n.entryAt i = m.entryAt i

/-- Both nodes serve a sequence of requests alike. -/
theorem serve_retains (h : n₀.Retains snap n) (hcommit : snap.lastIncludedIndex ≤ n₀.commitIndex)
    {requests : List (Request × List Fate)} (hrequests : ∀ r ∈ requests, n₀.AgreesWithSender r.1)
    (disk disk' : PersistentState) :
    (n.serve disk requests).1 = ((n.compactTo snap).serve disk' requests).1 ∧
      Option.Rel (SameAbove snap.lastIncludedIndex) (n.serve disk requests).2
        ((n.compactTo snap).serve disk' requests).2 := by
  induction requests generalizing n disk disk' with
  | nil =>
    exact ⟨rfl, .some ⟨rfl, rfl, rfl, h.lastLogIndex.symm, h.lastLogTerm.symm, fun i hi => (h.entryAt hi).symm⟩⟩
  | cons r rest ih =>
    obtain ⟨req, fates⟩ := r
    have hreq : n₀.AgreesWithSender req := hrequests _ List.mem_cons_self
    have hends := (handle_inStep h hcommit hreq).exec StorageCall.effect fates disk disk'
    rcases hrun : (n.handle req).run fates disk with ⟨outcome, d⟩
    rcases hrun' : ((n.compactTo snap).handle req).run fates disk' with ⟨outcome', d'⟩
    change SameEnd _ ((n.handle req).run fates disk).1 (((n.compactTo snap).handle req).run fates disk').1 at hends
    rw [hrun, hrun'] at hends
    simp only [serve, hrun, hrun']
    cases hends with
    | @returned r r' hmatched =>
      obtain ⟨n', answer⟩ := r
      obtain ⟨m', answer'⟩ := r'
      obtain ⟨hretains, rfl, hanswer⟩ := hmatched
      obtain ⟨hverdicts, hnodes⟩ := ih hretains (fun r hr => hrequests r (List.mem_cons_of_mem _ hr)) d d'
      exact ⟨congrArg₂ List.cons hanswer hverdicts, hnodes⟩
    | faulted => exact ⟨rfl, .none⟩
    | crashed => exact ⟨rfl, .none⟩

/-- **Compaction is invisible to the protocol.** Compacting a log up to a committed index succeeds while
storage works, and then every sequence of requests from candidates, and from leaders that have the committed
entries, gets the same verdicts as without compaction, whatever storage does meanwhile, and leaves the same
term, vote, commit index and end of the log, and the same entries behind the index. -/
theorem compaction_invisible {index : Int} (hlow : n.snapshotIndex < index) (hcommit : index ≤ n.commitIndex)
    (hlast : n.commitIndex ≤ n.lastLogIndex) (data : Bytes) (disk : PersistentState) :
    ∃ m disk', (n.takeSnapshot index data).run [] disk = (.returned (m, .ok ()), disk') ∧
      ∀ requests : List (Request × List Fate), (∀ r ∈ requests, n.AgreesWithSender r.1) →
        (n.serve disk requests).1 = (m.serve disk' requests).1 ∧
          Option.Rel (SameAbove index) (n.serve disk requests).2 (m.serve disk' requests).2 := by
  obtain ⟨entry, hentry⟩ := exists_entryAt (n := n) (i := index) hlow (by omega)
  have hensures : (n.takeSnapshot index data).Ensures False (fun _ => False)
      (fun r _ => r = (n.compactTo (n.snapshotAt index entry data), .ok ())) disk := by
    refine takeSnapshot_rule (fun hold => by omega) (fun hbeyond => by omega) fun entry' hentry' => ?_
    rw [hentry] at hentry'
    cases hentry'
    exact ⟨nofun, nofun, rfl⟩
  obtain ⟨_, disk', hrun, rfl⟩ := StorageProgram.Ensures.returned hensures
  refine ⟨_, disk', hrun, fun requests hrequests => ?_⟩
  have hretains : n.Retains (n.snapshotAt index entry data) n :=
    ⟨hlow, ⟨entry, hentry, rfl⟩, rfl, rfl, fun _ _ => rfl⟩
  exact serve_retains hretains hcommit hrequests disk disk'

end Node

/-- A follower with two committed entries. -/
def committedFollower : Node :=
  { Node.blank "b" ["a", "c"] with currentTerm := 4, log := leaderLog, commitIndex := 2 }

/-- The leader sends its whole log again, and then a candidate with the same log asks for a vote. -/
def laterRequests : List (Request × List Fate) :=
  [(.append (requestFrom leaderLog 0), []),
    (.vote { term := 5, candidateID := "c", lastLogIndex := 2, lastLogTerm := 3 }, [])]

/-- Compacted at index 1, the follower accepts the entries and grants the vote, as it does without. -/
theorem compaction_invisible_to_requests :
    ∃ m disk', (committedFollower.takeSnapshot 1 []).run [] .empty = (.returned (m, .ok ()), disk') ∧
      (committedFollower.serve .empty laterRequests).1 = [.ok (4, true), .ok (5, true)] ∧
      (committedFollower.serve .empty laterRequests).1 = (m.serve disk' laterRequests).1 := by
  have hlow : committedFollower.snapshotIndex < 1 := by decide
  have hagrees : committedFollower.AgreesWith leaderLog committedFollower.commitIndex := by
    refine ⟨by decide, by decide, rfl, fun j _ hj => ?_⟩
    match j with
    | 0 => rfl
    | 1 => rfl
    | j + 2 =>
      change ((j + 2 : ℕ) : Int) < 2 at hj
      omega
  obtain ⟨m, disk', hrun, hsame⟩ := Node.compaction_invisible hlow (by decide) (by decide) [] .empty
  refine ⟨m, disk', hrun, rfl, (hsame laterRequests fun r hr => ?_).1⟩
  rcases List.mem_cons.mp hr with rfl | hr
  · exact ⟨leaderLog, 0, ⟨by decide, rfl, rfl, rfl⟩, hagrees⟩
  · obtain rfl := List.mem_singleton.mp hr
    trivial

end ConsensusLab.Raft
