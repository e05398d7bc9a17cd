import ConsensusLab.Raft.Steps
import Mathlib.Data.List.Basic

/-!
# Rules for the RPC handlers

For each handler and each part of it, what has to be shown to establish a postcondition: one hypothesis for
each way through it, with the tests passed on that way. What a storage call does to the
disk is left open. Proofs about a section use its rule and do not unfold it.
-/

namespace ConsensusLab.Raft

open Foundation StorageProgram

/-- The snapshot that an InstallSnapshot request carries. -/
def InstallSnapshotRequest.snapshot (req : InstallSnapshotRequest) : Snapshot where
  lastIncludedIndex := req.lastIncludedIndex
  lastIncludedTerm := req.lastIncludedTerm
  config := req.config
  data := req.data

namespace Node

variable {Disk : Type} {effect : StorageCall → Disk → Disk} {faults : Prop} {lost : Disk → Prop} {disk : Disk}
  {n : Node}

/-- The term and vote under which a node follows a request of a later term. -/
def adoptTerm (n : Node) (term : Int) : Node :=
  { n with currentTerm := term, votedFor := "" }

/-- The node as a follower of whoever sent the request. -/
def asFollower (n : Node) : Node :=
  { n with role := .follower }.resetElectionTimeout

/-- Deciding on a vote: denied, or granted and saved. -/
theorem castVote_rule {Q : Node × Except RaftError RequestVoteResponse → Disk → Prop}
    {req : RequestVoteRequest}
    (hdeny : Q (n, .ok { term := n.currentTerm, voteGranted := false }) disk)
    (hgrant : n.votedFor = "" ∨ n.votedFor = req.candidateID → n.upToDate req →
      (faults → lost disk ∧ Q (n, .error .storage) disk) ∧
        Q ({ n with votedFor := req.candidateID }.resetElectionTimeout,
            .ok { term := n.currentTerm, voteGranted := true })
          (effect (.saveHardState { n with votedFor := req.candidateID }.hardState) disk)) :
    Ensures effect faults lost Q (n.castVote req) disk := by
  simp only [castVote, ensures_ite, ensures_bind]
  exact ⟨fun hopen => hgrant hopen.1 hopen.2, fun _ => hdeny⟩

/-- Handling a vote request: refused, answered in the current term, or after moving to its term. -/
theorem handleRequestVote_rule
    {Q : Node × Except RaftError RequestVoteResponse → Disk → Prop}
    {req : RequestVoteRequest} (hdegraded : n.degraded = true → Q (n, .error .nodeDegraded) disk)
    (hstale : n.degraded = false → req.term < n.currentTerm →
      Q (n, .ok { term := n.currentTerm, voteGranted := false }) disk)
    (hmove : n.degraded = false → n.currentTerm < req.term →
      (faults → lost disk ∧ Q (n, .error .storage) disk) ∧
        Ensures effect faults lost Q ({ n.adoptTerm req.term with role := .follower }.castVote req)
          (effect (.saveHardState (n.adoptTerm req.term).hardState) disk))
    (hsame : n.degraded = false → req.term = n.currentTerm →
      Ensures effect faults lost Q (n.castVote req) disk) :
    Ensures effect faults lost Q (n.handleRequestVote req) disk := by
  simp only [handleRequestVote, ensures_ite, ensures_bind, Bool.not_eq_true]
  exact ⟨hdegraded, fun hd => ⟨hstale hd, fun hge => ⟨hmove hd, fun hle => hsame hd (by omega)⟩⟩⟩

/-- The request's preceding entry is one the node has, unless its snapshot hides it. -/
structure PrevMatches (n : Node) (req : AppendEntriesRequest) : Prop where
  reached : req.prevLogIndex ≤ n.lastLogIndex
  entry : n.snapshotIndex < req.prevLogIndex →
    ∃ own, n.entryAt req.prevLogIndex = some own ∧ own.term = req.prevLogTerm
  boundary : req.prevLogIndex = n.snapshotIndex → req.prevLogTerm = n.snapshotTerm

/-- The three rejections of `HandleAppendEntries` and their reasons. -/
inductive PrevConflict (n : Node) (req : AppendEntriesRequest) : AppendEntriesResponse → Prop
  | missing (hmissing : n.lastLogIndex < req.prevLogIndex) :
      PrevConflict n req (n.rejection 0 (n.lastLogIndex + 1))
  | term {own : LogEntry} (hown : n.entryAt req.prevLogIndex = some own)
      (hterm : own.term ≠ req.prevLogTerm) :
      PrevConflict n req (n.rejection own.term (n.firstIndexOfTerm own.term))
  | boundary (hprev : req.prevLogIndex = n.snapshotIndex) (hterm : req.prevLogTerm ≠ n.snapshotTerm) :
      PrevConflict n req (n.rejection 0 (n.snapshotIndex + 1))

/-- Checking the preceding entry never panics: it conflicts or matches. -/
theorem checkPrevLog_rule {Q : Option AppendEntriesResponse → Disk → Prop}
    {req : AppendEntriesRequest}
    (hconflict : ∀ resp, n.PrevConflict req resp → Q (some resp) disk)
    (hmatch : n.PrevMatches req → Q none disk) :
    Ensures effect faults lost Q (n.checkPrevLog req) disk := by
  simp only [checkPrevLog, ensures_ite]
  refine ⟨fun hmissing => hconflict _ (.missing hmissing), fun hreached => ⟨fun hbehind => ?_, fun hcovered =>
    ⟨fun hat => ⟨fun hterm => hconflict _ (.boundary hat hterm), fun hterm => hmatch ?_⟩, fun hbelow =>
      hmatch ?_⟩⟩⟩
  · obtain ⟨own, hown⟩ := exists_entryAt (n := n) (i := req.prevLogIndex) (by omega) (by omega)
    simp only [hown, ensures_ite]
    exact ⟨fun hterm => hconflict _ (.term hown hterm),
      fun hterm => hmatch ⟨by omega, fun _ => ⟨own, hown, not_not.mp hterm⟩, fun _ => by omega⟩⟩
  · exact ⟨by omega, fun _ => by omega, fun _ => not_not.mp hterm⟩
  · exact ⟨by omega, fun _ => by omega, fun _ => absurd ‹_› hbelow⟩

/-- The entries of a request, from an index on, are covered by the snapshot or have the terms of the
node's own. -/
def Holds (n : Node) (index : Int) (entries : List LogEntry) : Prop :=
  ∀ (j : ℕ) e, entries[j]? = some e →
    index + j ≤ n.snapshotIndex ∨ ∃ own, n.entryAt (index + j) = some own ∧ own.term = e.term

/-- One more held entry in front. -/
theorem Holds.cons {index : Int} {entry : LogEntry} {rest : List LogEntry}
    (hentry : index ≤ n.snapshotIndex ∨ ∃ own, n.entryAt index = some own ∧ own.term = entry.term)
    (hrest : n.Holds (index + 1) rest) : n.Holds index (entry :: rest) := by
  intro j e he
  cases j with
  | zero =>
    cases he
    simpa using hentry
  | succ j =>
    have := hrest j e he
    rwa [show index + 1 + (j : Int) = index + ((j + 1 : ℕ) : Int) by omega] at this

/-- Held entries lie within the log. -/
theorem Holds.le_lastLogIndex {index : Int} {held : List LogEntry} (h : n.Holds index held)
    (hreached : index - 1 ≤ n.lastLogIndex) : index - 1 + held.length ≤ n.lastLogIndex := by
  rcases List.eq_nil_or_concat' held with rfl | ⟨init, e, rfl⟩
  · simpa using hreached
  · have hlast := h init.length e (by simp)
    have hsnap : n.snapshotIndex ≤ n.lastLogIndex := by
      unfold lastLogIndex
      omega
    simp only [List.length_append, List.length_singleton] at hreached ⊢
    rcases hlast with hcovered | ⟨own, hown, _⟩
    · omega
    · have := (entryAt_eq_some hown).2.1
      omega

/-- Merging entries: all are held, the first one that is not lies behind the log, or it conflicts. -/
theorem mergeEntries_rule {Q : Node × Except RaftError Unit → Disk → Prop} {index : Int}
    {entries : List LogEntry} (hheld : n.Holds index entries → Q (n, .ok ()) disk)
    (happend : ∀ held entry rest, entries = held ++ entry :: rest → n.Holds index held →
      n.snapshotIndex < index + held.length → n.lastLogIndex < index + held.length →
      (faults → lost disk ∧ Q (n, .error .storage) disk) ∧
        Q ({ n with log := n.log ++ entry :: rest }, .ok ())
          (effect (.appendLog (entry :: rest)) disk))
    (hconflict : ∀ held entry rest own, entries = held ++ entry :: rest → n.Holds index held →
      n.entryAt (index + held.length) = some own → own.term ≠ entry.term →
      (faults → lost disk ∧ Q (n, .error .storage) disk) ∧
        (faults →
          lost (effect (.truncateLog (max 0 (index + held.length - n.snapshotIndex - 1))) disk) ∧
          Q ({ n with log := n.log.take (index + held.length - n.snapshotIndex - 1).toNat },
              .error .storage)
            (effect (.truncateLog (max 0 (index + held.length - n.snapshotIndex - 1))) disk)) ∧
        Q ({ n with
              log := n.log.take (index + held.length - n.snapshotIndex - 1).toNat ++ entry :: rest },
            .ok ())
          (effect (.appendLog (entry :: rest))
            (effect (.truncateLog (max 0 (index + held.length - n.snapshotIndex - 1))) disk))) :
    Ensures effect faults lost Q (n.mergeEntries index entries) disk := by
  induction entries generalizing index with
  | nil => exact hheld fun j e he => by cases he
  | cons entry rest ih =>
    have hnext : (index ≤ n.snapshotIndex ∨ ∃ own, n.entryAt index = some own ∧ own.term = entry.term) →
        Ensures effect faults lost Q (n.mergeEntries (index + 1) rest) disk := by
      intro hentry
      have hshift : ∀ held : List LogEntry,
          index + 1 + (held.length : Int) = index + ((entry :: held).length : Int) := by
        intro held
        rw [List.length_cons]
        omega
      refine ih (fun h => hheld (h.cons hentry)) (fun held e more heq h hsnap hlast => ?_)
        (fun held e more own heq h hown hterm => ?_)
      · rw [hshift] at hsnap hlast
        exact happend (entry :: held) e more (by rw [heq, List.cons_append]) (h.cons hentry) hsnap hlast
      · rw [hshift] at hown ⊢
        exact hconflict (entry :: held) e more own (by rw [heq, List.cons_append]) (h.cons hentry) hown hterm
    simp only [mergeEntries, ensures_ite, ensures_bind]
    refine ⟨fun hcovered => hnext (Or.inl hcovered), fun hbehind => ⟨fun hlast => ?_, fun hlast => ?_⟩⟩
    · have h := happend [] entry rest rfl (fun j e he => by cases he)
      simp only [List.length_nil, Int.natCast_zero, Int.add_zero] at h
      exact h (by omega) (by omega)
    · obtain ⟨own, hown⟩ := exists_entryAt (n := n) (i := index) (by omega) (by omega)
      simp only [hown, logTo_of_lt (n := n) (i := index) (by omega) (by omega), ensures_ite, ensures_bind]
      refine ⟨fun hterm => hnext (Or.inr ⟨own, hown, hterm⟩), fun hterm => ?_⟩
      have h := hconflict [] entry rest own rfl (fun j e he => by cases he)
      simp only [List.length_nil, Int.natCast_zero, Int.add_zero] at h
      exact h hown hterm

/-- Following the leader's commit index: nothing new, or a later index that is saved. -/
theorem followCommit_rule {Q : Node × Except RaftError Unit → Disk → Prop}
    {leaderCommit : Int} (hstay : leaderCommit ≤ n.commitIndex → Q (n, .ok ()) disk)
    (hmove : n.commitIndex < leaderCommit →
      (faults → lost disk ∧
        Q ({ n with commitIndex := min leaderCommit n.lastLogIndex }, .error .storage) disk) ∧
        Q ({ n with commitIndex := min leaderCommit n.lastLogIndex }.notifyApply, .ok ())
          (effect (.saveHardState { n with commitIndex := min leaderCommit n.lastLogIndex }.hardState) disk)) :
    Ensures effect faults lost Q (n.followCommit leaderCommit) disk := by
  have hmin : (if leaderCommit < n.lastLogIndex then leaderCommit else n.lastLogIndex) =
      min leaderCommit n.lastLogIndex := by
    split <;> omega
  simp only [followCommit, ensures_ite, ensures_bind, hmin]
  exact ⟨hmove, fun hle => hstay (by omega)⟩

/-- Handling entries in the current term: a conflict is reported, or they are merged and the leader's
commit index is followed. -/
theorem appendFromLeader_rule
    {Q : Node × Except RaftError AppendEntriesResponse → Disk → Prop}
    {req : AppendEntriesRequest}
    (hconflict : ∀ resp, n.asFollower.PrevConflict req resp → Q (n.asFollower, .ok resp) disk)
    (hmatch : n.asFollower.PrevMatches req →
      Ensures effect faults lost
        (fun merged d =>
          (∀ e, merged.2 = .error e → Q (merged.1, .error e) d) ∧
          (merged.2 = .ok () → Ensures effect faults lost
            (fun final d' =>
              (∀ e, final.2 = .error e → Q (final.1, .error e) d') ∧
              (final.2 = .ok () → Q (final.1, .ok n.acceptance) d'))
            (merged.1.followCommit req.leaderCommit) d))
        (n.asFollower.mergeEntries (req.prevLogIndex + 1) req.entries) disk) :
    Ensures effect faults lost Q (n.appendFromLeader req) disk := by
  simp only [appendFromLeader, ensures_bind]
  refine checkPrevLog_rule hconflict fun hm => ?_
  simp only [ensures_bind]
  refine (hmatch hm).mono (fun _ h => h) ?_
  rintro ⟨merged, e | ⟨⟨⟩⟩⟩ d ⟨herror, hok⟩
  · exact herror e rfl
  · simp only [ensures_bind]
    refine (hok rfl).mono (fun _ h => h) ?_
    rintro ⟨final, e | ⟨⟨⟩⟩⟩ d' ⟨herror', hok'⟩
    · exact herror' e rfl
    · exact hok' rfl

/-- Handling an AppendEntries request. -/
theorem handleAppendEntries_rule
    {Q : Node × Except RaftError AppendEntriesResponse → Disk → Prop}
    {req : AppendEntriesRequest} (hdegraded : n.degraded = true → Q (n, .error .nodeDegraded) disk)
    (hstale : n.degraded = false → req.term < n.currentTerm → Q (n, .ok (n.rejection 0 0)) disk)
    (hmove : n.degraded = false → n.currentTerm < req.term →
      (faults → lost disk ∧ Q (n, .error .storage) disk) ∧
        Ensures effect faults lost Q ((n.adoptTerm req.term).appendFromLeader req)
          (effect (.saveHardState (n.adoptTerm req.term).hardState) disk))
    (hsame : n.degraded = false → req.term = n.currentTerm →
      Ensures effect faults lost Q (n.appendFromLeader req) disk) :
    Ensures effect faults lost Q (n.handleAppendEntries req) disk := by
  simp only [handleAppendEntries, ensures_ite, ensures_bind, Bool.not_eq_true]
  exact ⟨hdegraded, fun hd => ⟨hstale hd, fun hge => ⟨hmove hd, fun hle => hsame hd (by omega)⟩⟩⟩

/-- Adopting a snapshot keeps the entries behind it, which are none if it reaches behind the log. -/
theorem adoptSnapshot_log (n : Node) (snap : Snapshot) :
    (n.adoptSnapshot snap).log = n.log.drop (snap.lastIncludedIndex - n.snapshotIndex).toNat := by
  simp only [adoptSnapshot]
  split
  · rfl
  · rename_i hend
    rw [lastLogIndex] at hend
    rw [List.drop_eq_nil_of_le (by omega)]

/-- The slice that `applySnapshotLocked` takes of the log is within it. -/
theorem logBehind_eq (n : Node) (snap : Snapshot) : n.logBehind snap = some (n.adoptSnapshot snap).log := by
  rw [adoptSnapshot_log]
  unfold logBehind lastLogIndex
  split
  · split
    · exact if_neg (by omega)
    · rw [show (snap.lastIncludedIndex - n.snapshotIndex).toNat = 0 by omega, List.drop_zero]
  · rw [List.drop_eq_nil_of_le (by omega)]

/-- Applying a snapshot: the hard state is saved if the snapshot brings a configuration, then the log
is compacted on disk, and neither failure is noticed. -/
theorem applySnapshot_rule {Q : Node → Disk → Prop} {snap : Snapshot}
    (hkeep : (faults → lost disk ∧ Q (n.adoptSnapshot snap) disk) ∧
      Q (n.adoptSnapshot snap)
        (effect (.setLog snap.lastIncludedIndex (n.adoptSnapshot snap).log) disk))
    (hsave : 0 < snap.config.members.length →
      (faults → lost (effect (.saveHardState (n.adoptSnapshot snap).hardState) disk) ∧
        Q (n.adoptSnapshot snap) (effect (.saveHardState (n.adoptSnapshot snap).hardState) disk)) ∧
      Q (n.adoptSnapshot snap)
        (effect (.setLog snap.lastIncludedIndex (n.adoptSnapshot snap).log)
          (effect (.saveHardState (n.adoptSnapshot snap).hardState) disk))) :
    Ensures effect faults lost Q (n.applySnapshot snap) disk := by
  simp only [applySnapshot, logBehind_eq, ensures_ite, ensures_bind]
  exact ⟨fun hconfig => ⟨fun hf => ⟨(hkeep.1 hf).1, hkeep⟩, hsave hconfig⟩, fun _ => hkeep⟩

/-- Handling a snapshot in the current term: it is old, or it is saved and applied. -/
theorem installFromLeader_rule
    {Q : Node × Except RaftError InstallSnapshotResponse → Disk → Prop}
    {req : InstallSnapshotRequest}
    (hold : req.lastIncludedIndex < n.snapshotIndex ∨
        (req.lastIncludedIndex = n.snapshotIndex ∧ req.lastIncludedTerm = n.snapshotTerm) →
      Q (n.asFollower, .ok { term := n.currentTerm }) disk)
    (hnew : n.snapshotIndex ≤ req.lastIncludedIndex →
      (faults → lost disk ∧ Q (n.asFollower, .error .storage) disk) ∧
        Ensures effect faults lost (fun installed d => Q (installed.notifyApply, .ok { term := n.currentTerm }) d)
          (n.asFollower.applySnapshot req.snapshot) (effect (.saveSnapshot req.snapshot) disk)) :
    Ensures effect faults lost Q (n.installFromLeader req) disk := by
  simp only [installFromLeader, ensures_ite, ensures_bind]
  refine ⟨fun h => hold (Or.inl h), fun h => ⟨fun h' => hold (Or.inr h'), fun _ => ?_⟩⟩
  obtain ⟨hfail, hdone⟩ := hnew (by omega)
  refine ⟨hfail, ?_⟩
  change Ensures effect faults lost Q
    (n.asFollower.applySnapshot req.snapshot >>= fun installed =>
      pure (installed.notifyApply, .ok { term := n.currentTerm })) (effect (.saveSnapshot req.snapshot) disk)
  rw [ensures_bind]
  exact hdone

/-- Handling an InstallSnapshot request. -/
theorem handleInstallSnapshot_rule
    {Q : Node × Except RaftError InstallSnapshotResponse → Disk → Prop}
    {req : InstallSnapshotRequest} (hdegraded : n.degraded = true → Q (n, .error .nodeDegraded) disk)
    (hstale : n.degraded = false → req.term < n.currentTerm →
      Q (n, .ok { term := n.currentTerm }) disk)
    (hmove : n.degraded = false → n.currentTerm < req.term →
      (faults → lost disk ∧ Q (n, .error .storage) disk) ∧
        Ensures effect faults lost Q ((n.adoptTerm req.term).installFromLeader req)
          (effect (.saveHardState (n.adoptTerm req.term).hardState) disk))
    (hsame : n.degraded = false → req.term = n.currentTerm →
      Ensures effect faults lost Q (n.installFromLeader req) disk) :
    Ensures effect faults lost Q (n.handleInstallSnapshot req) disk := by
  simp only [handleInstallSnapshot, ensures_ite, ensures_bind, Bool.not_eq_true]
  exact ⟨hdegraded, fun hd => ⟨hstale hd, fun hge => ⟨hmove hd, fun hle => hsame hd (by omega)⟩⟩⟩

end Node

end ConsensusLab.Raft
