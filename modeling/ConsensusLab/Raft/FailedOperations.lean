import ConsensusLab.Foundation.StorageCalls
import ConsensusLab.Raft.AcceptedEntries
import ConsensusLab.Raft.ReplicationRules
import ConsensusLab.Raft.Server

/-!
# Operations that fail

When a storage call fails, the operation that made it takes back what it has changed in
memory and returns an error. Memory then equals what is stored, with one exception: a
follower that could not save the commit index it was told, which it does last, has it in
memory nevertheless.
-/

namespace ConsensusLab.Raft

open Foundation

/-- What the node has in memory is what storage would load. -/
structure InSync (n : Node) (d : PersistentState) : Prop where
  currentTerm : d.hard.currentTerm = n.currentTerm
  votedFor : d.hard.votedFor = n.votedFor
  commitIndex : d.hard.commitIndex = n.commitIndex
  snapshotIndex : d.snapshot.elim 0 Snapshot.lastIncludedIndex = n.snapshotIndex
  snapshotTerm : d.snapshot.elim 0 Snapshot.lastIncludedTerm = n.snapshotTerm
  logBase : d.logBase = n.snapshotIndex
  log : d.log = n.log

/-- An operation that is asked of a node. -/
inductive Operation
  | serve (req : Request)
  | startCommand (cmd : Bytes)

/-- Attempt an operation; the answer is whether it succeeded. -/
def Operation.attempt (n : Node) : Operation → Section (Node × Bool)
  | .serve req => do
    let (n', answer) ← n.handle req
    pure (n', answer.isOk)
  | .startCommand cmd => do
    let (n', index) ← n.startCommand cmd
    pure (n', index.isSome)

namespace InSync

variable {n n' : Node} {d : PersistentState} {faults : Prop}

/-- Only what is stored matters. -/
theorem keep (h : InSync n d) (hterm : n'.currentTerm = n.currentTerm) (hvote : n'.votedFor = n.votedFor)
    (hcommit : n'.commitIndex = n.commitIndex) (hindex : n'.snapshotIndex = n.snapshotIndex)
    (hsnapTerm : n'.snapshotTerm = n.snapshotTerm) (hlog : n'.log = n.log) : InSync n' d :=
  ⟨h.currentTerm.trans hterm.symm, h.votedFor.trans hvote.symm, h.commitIndex.trans hcommit.symm,
    h.snapshotIndex.trans hindex.symm, h.snapshotTerm.trans hsnapTerm.symm, h.logBase.trans hindex.symm,
    h.log.trans hlog.symm⟩

/-- Saving the hard state after a change of it. -/
theorem save (h : InSync n d) (hindex : n'.snapshotIndex = n.snapshotIndex)
    (hsnapTerm : n'.snapshotTerm = n.snapshotTerm) (hlog : n'.log = n.log) :
    InSync n' { d with hard := n'.hardState } :=
  ⟨rfl, rfl, rfl, h.snapshotIndex.trans hindex.symm, h.snapshotTerm.trans hsnapTerm.symm,
    h.logBase.trans hindex.symm, h.log.trans hlog.symm⟩

/-- Appending to the log. -/
theorem append (h : InSync n d) (entries : List LogEntry) :
    InSync { n with log := n.log ++ entries } { d with log := d.log ++ entries } :=
  ⟨h.currentTerm, h.votedFor, h.commitIndex, h.snapshotIndex, h.snapshotTerm, h.logBase,
    congrArg (· ++ entries) h.log⟩

/-- Cutting the log. -/
theorem truncate (h : InSync n d) (index : Int) :
    InSync { n with log := n.log.take (index - n.snapshotIndex - 1).toNat }
      { d with log := d.log.take (max 0 (index - n.snapshotIndex - 1)).toNat } := by
  refine ⟨h.currentTerm, h.votedFor, h.commitIndex, h.snapshotIndex, h.snapshotTerm, h.logBase, ?_⟩
  change d.log.take (max 0 (index - n.snapshotIndex - 1)).toNat = n.log.take (index - n.snapshotIndex - 1).toNat
  rw [h.log, show (max 0 (index - n.snapshotIndex - 1)).toNat = (index - n.snapshotIndex - 1).toNat by omega]

/-- Deciding on a vote. -/
theorem castVote (h : InSync n d) (req : RequestVoteRequest) :
    (n.castVote req).Ensures faults (fun _ => True) (fun r d' => InSync r.1 d') d :=
  Node.castVote_rule h fun _ _ => ⟨fun _ => ⟨trivial, h⟩, h.save rfl rfl rfl⟩

/-- Handling a vote request. -/
theorem handleRequestVote (h : InSync n d) (req : RequestVoteRequest) :
    (n.handleRequestVote req).Ensures faults (fun _ => True) (fun r d' => InSync r.1 d') d := by
  refine Node.handleRequestVote_rule (fun _ => h) (fun _ _ => h) (fun _ _ => ⟨fun _ => ⟨trivial, h⟩, ?_⟩)
    fun _ _ => h.castVote req
  have hmoved : InSync { n.adoptTerm req.term with role := .follower }
      { d with hard := (n.adoptTerm req.term).hardState } := h.save rfl rfl rfl
  exact hmoved.castVote req

/-- Merging entries. -/
theorem mergeEntries (h : InSync n d) (index : Int) (entries : List LogEntry) :
    (n.mergeEntries index entries).Ensures faults (fun _ => True) (fun r d' => InSync r.1 d') d := by
  refine Node.mergeEntries_rule (fun _ => h) (fun held entry rest _ _ _ _ => ?_) fun held entry rest own _ _ _ _ => ?_
  · exact ⟨fun _ => ⟨trivial, h⟩, h.append (entry :: rest)⟩
  · have hcut := h.truncate (index + held.length)
    exact ⟨fun _ => ⟨trivial, h⟩, fun _ => ⟨trivial, hcut⟩, hcut.append (entry :: rest)⟩

/-- Installing a snapshot: an error leaves nothing behind. -/
theorem handleInstallSnapshot (h : InSync n d) (req : InstallSnapshotRequest) :
    (n.handleInstallSnapshot req).Ensures faults (fun _ => True)
      (fun r d' => ∀ e, r.2 = .error e → InSync r.1 d') d := by
  have hinstall : ∀ {n₁ : Node} {d₁}, InSync n₁ d₁ → (n₁.installFromLeader req).Ensures faults (fun _ => True)
      (fun r d' => ∀ e, r.2 = .error e → InSync r.1 d') d₁ := by
    intro n₁ d₁ h₁
    refine Node.installFromLeader_rule (fun _ => nofun) fun _ => ⟨fun _ => ⟨trivial, fun _ _ => ?_⟩, ?_⟩
    · exact h₁.keep rfl rfl rfl rfl rfl rfl
    · exact Node.applySnapshot_rule ⟨fun _ => ⟨trivial, nofun⟩, nofun⟩ fun _ => ⟨fun _ => ⟨trivial, nofun⟩, nofun⟩
  refine Node.handleInstallSnapshot_rule (fun _ _ _ => h) (fun _ _ => nofun)
    (fun _ _ => ⟨fun _ => ⟨trivial, fun _ _ => h⟩, ?_⟩) fun _ _ => hinstall h
  exact hinstall (h.save rfl rfl rfl)

/-- Starting a command: a refusal leaves nothing behind. -/
theorem startCommand (h : InSync n d) (cmd : Bytes) :
    (n.startCommand cmd).Ensures faults (fun _ => True) (fun r d' => r.2 = none → InSync r.1 d') d := by
  refine Node.startCommand_rule (fun _ _ => h) (fun _ _ _ => ⟨trivial, fun _ => h⟩) fun _ _ => ?_
  exact Node.advanceCommitIndex_rule (fun _ => trivial) nofun fun _ _ => ⟨fun _ => nofun, nofun⟩

end InSync

namespace Node

variable {n n₁ : Node} {d : PersistentState} {req : AppendEntriesRequest} {log : List LogEntry}

/-- The request moves the commit index: it is accepted, the leader's commit index is later, and the log does
not end at the commit index once the entries are merged. -/
structure CommitMoves (n : Node) (req : AppendEntriesRequest) : Prop where
  healthy : n.degraded = false
  term : n.currentTerm ≤ req.term
  prev : n.PrevMatches req
  commit : n.commitIndex < req.leaderCommit
  last : (n.Holds (req.prevLogIndex + 1) req.entries ∧ n.lastLogIndex ≠ n.commitIndex) ∨
    (¬n.Holds (req.prevLogIndex + 1) req.entries ∧ req.prevLogIndex + req.entries.length ≠ n.commitIndex)

/-- The last index of a merged log differs from the commit index exactly if the request moves it. -/
theorem commitMoves_iff (hhealthy : n.degraded = false) (hterm : n.currentTerm ≤ req.term) (hprev : n.PrevMatches req)
    (hcommit : n.commitIndex < req.leaderCommit) (hlog : n.MergesTo (req.prevLogIndex + 1) req.entries log) :
    n.CommitMoves req ↔ n.snapshotIndex + log.length ≠ n.commitIndex := by
  have hreached := hprev.reached
  by_cases hheld : n.Holds (req.prevLogIndex + 1) req.entries
  · have hlast : n.snapshotIndex + (log.length : Int) = n.lastLogIndex := by rw [hlog.eq_of_holds hheld, lastLogIndex]
    rw [hlast]
    refine ⟨fun h => ?_, fun h => ⟨hhealthy, hterm, hprev, hcommit, Or.inl ⟨hheld, h⟩⟩⟩
    exact h.last.elim And.right fun hnot => absurd hheld hnot.1
  · have hlast := hlog.end_of_not_holds (by omega) hheld
    rw [hlast, Int.add_sub_cancel]
    refine ⟨fun h => ?_, fun h => ⟨hhealthy, hterm, hprev, hcommit, Or.inr ⟨hheld, h⟩⟩⟩
    exact h.last.elim (fun hyes => absurd hyes.1 hheld) And.right

end Node

namespace InSync

variable {n n' : Node} {d : PersistentState} {req : AppendEntriesRequest}

/-- The loop over the entries keeps memory and storage in step, and it merges them unless storage fails. -/
theorem merges (h : InSync n d) (index : Int) (entries : List LogEntry) (faults : Prop) :
    (n.mergeEntries index entries).Ensures faults (fun _ => faults) (fun r d' => InSync r.1 d' ∧
      ((faults ∧ r.2 = .error .storage) ∨
        ∃ log, n.MergesTo index entries log ∧ r = ({ n with log := log }, .ok ()))) d := by
  have hmerges : (n.mergeEntries index entries).Ensures faults (fun _ => faults) (fun r _ =>
      (faults ∧ r.2 = .error .storage) ∨ ∃ log, n.MergesTo index entries log ∧ r = ({ n with log := log }, .ok ())) d :=
    Node.merges_mergeEntries (fun hf _ _ => Or.inl ⟨hf, rfl⟩) fun log _ hm => Or.inr ⟨log, hm, rfl⟩
  exact ((h.mergeEntries index entries).and hmerges).mono (fun _ hlost => hlost.2) fun _ _ hpost => hpost

/-- A request that does not move the commit index leaves nothing behind when it fails. -/
theorem appendFromLeader {n₁ : Node} {d₁ : PersistentState} (h : InSync n₁ d₁)
    (hstays : ¬n.CommitMoves req) (hhealthy : n.degraded = false) (hterm : n.currentTerm ≤ req.term)
    (hindex : n₁.snapshotIndex = n.snapshotIndex) (hsnapTerm : n₁.snapshotTerm = n.snapshotTerm)
    (hlog : n₁.log = n.log) (hcommit : n₁.commitIndex = n.commitIndex) :
    (n₁.appendFromLeader req).Ensures True (fun _ => True) (fun r d' => ∀ e, r.2 = .error e → InSync r.1 d') d₁ := by
  have hfollowing : InSync n₁.asFollower d₁ := h.keep rfl rfl rfl rfl rfl rfl
  refine Node.appendFromLeader_rule (fun _ _ => nofun) fun hprev => ?_
  refine (hfollowing.merges _ _ True).mono (fun _ h => h) fun merged d₂ hmerged =>
    ⟨fun e he e' he' => hmerged.1, fun hok => ?_⟩
  obtain ⟨hsync, ⟨_, herror⟩ | ⟨log, hmerges, rfl⟩⟩ := hmerged
  · rw [herror] at hok
    cases hok
  · refine Node.followCommit_rule (fun _ => ⟨nofun, fun _ => nofun⟩) fun hmove =>
      ⟨fun _ => ⟨trivial, fun e he e' he' => ?_, nofun⟩, nofun, fun _ => nofun⟩
    have hmerges' : n.MergesTo (req.prevLogIndex + 1) req.entries log := hmerges.keep hindex.symm hlog.symm
    have hprev' : n.PrevMatches req := hprev.keep hindex.symm hsnapTerm.symm hlog.symm
    have hlt : n.commitIndex < req.leaderCommit := hcommit ▸ hmove
    have hlast : n.snapshotIndex + (log.length : Int) = n.commitIndex :=
      not_not.mp (mt (Node.commitMoves_iff hhealthy hterm hprev' hlt hmerges').mpr hstays)
    have hmin : min req.leaderCommit (n₁.snapshotIndex + (log.length : Int)) = n₁.commitIndex := by
      rw [hindex, hlast, hcommit]
      omega
    exact hsync.keep rfl rfl hmin rfl rfl rfl

/-- Handling such a request. -/
theorem handleAppendEntries (h : InSync n d) (hstays : ¬n.CommitMoves req) :
    (n.handleAppendEntries req).Ensures True (fun _ => True) (fun r d' => ∀ e, r.2 = .error e → InSync r.1 d') d := by
  refine Node.handleAppendEntries_rule (fun _ _ _ => h) (fun _ _ => nofun)
    (fun hhealthy hlt => ⟨fun _ => ⟨trivial, fun _ _ => h⟩, ?_⟩) fun hhealthy hsame => ?_
  · have hmoved : InSync (n.adoptTerm req.term) { d with hard := (n.adoptTerm req.term).hardState } := h.save rfl rfl rfl
    exact hmoved.appendFromLeader hstays hhealthy (Int.le_of_lt hlt) rfl rfl rfl rfl
  · exact h.appendFromLeader hstays hhealthy (Int.le_of_eq hsame.symm) rfl rfl rfl rfl

end InSync

/-- `HandleAppendEntries` once the entries are merged. -/
def Node.concludeMerge (n : Node) (req : AppendEntriesRequest) :
    Node × Except RaftError Unit → Section (Node × Except RaftError AppendEntriesResponse)
  | (merged, .error e) => pure (merged, .error e)
  | (merged, .ok ()) => do
    match ← merged.followCommit req.leaderCommit with
    | (final, .error e) => pure (final, .error e)
    | (final, .ok ()) => pure (final, .ok n.acceptance)

/-- A request with a matching preceding entry is handled in two parts. -/
theorem Node.appendFromLeader_eq {n : Node} {req : AppendEntriesRequest} (hprev : n.asFollower.PrevMatches req) :
    n.appendFromLeader req = (n.asFollower.mergeEntries (req.prevLogIndex + 1) req.entries >>= n.concludeMerge req) := by
  change (n.asFollower.checkPrevLog req >>= _) = _
  rw [Node.checkPrevLog_of_matches hprev]
  change (n.asFollower.mergeEntries (req.prevLogIndex + 1) req.entries >>= _) = _
  refine congrArg _ (funext fun merged => ?_)
  obtain ⟨merged, _ | _⟩ := merged <;> rfl

/-- Handling a request lets memory and storage diverge exactly if the last of its storage calls fails. -/
structure DivergesLast (p : Section (Node × Except RaftError AppendEntriesResponse)) (d : PersistentState) : Prop where
  before : ∀ k n' d' e, k + 1 ≠ (p.performed []).length →
    p.run (List.replicate k .succeeds ++ [.fails]) d = (.returned (n', .error e), d') → InSync n' d'
  last : ∃ k n' d', k + 1 = (p.performed []).length ∧
    p.run (List.replicate k .succeeds ++ [.fails]) d = (.returned (n', .error .storage), d') ∧
      d'.hard.commitIndex ≠ n'.commitIndex

namespace InSync

variable {n n₁ : Node} {d d₁ : PersistentState} {req : AppendEntriesRequest}

/-- Once the entries are merged, only saving the commit index is left. -/
theorem concludeMerge_cases {m : Node} (hmove : m.commitIndex < req.leaderCommit) :
    ((n.concludeMerge req (m, .ok ())).performed []).length = 1 ∧
      (∀ d, (n.concludeMerge req (m, .ok ())).run [.fails] d = (.returned ({ m with
        commitIndex := if req.leaderCommit < m.lastLogIndex then req.leaderCommit else m.lastLogIndex },
          .error .storage), d)) ∧
      ∀ fates d n' d' e, (fates = [] ∨ ∃ rest, fates = .succeeds :: rest) →
        (n.concludeMerge req (m, .ok ())).run fates d ≠ (.returned (n', .error e), d') := by
  rw [Node.concludeMerge, Node.followCommit, if_pos hmove]
  refine ⟨rfl, fun d => rfl, fun fates d n' d' e hfates hrun => ?_⟩
  rcases hfates with rfl | ⟨rest, rfl⟩ <;> cases hrun

/-- Entries are merged and the commit index is saved. Where merging fails, nothing is left behind, and where saving
fails, the commit index stays in memory. -/
theorem merge_diverges {p : Section (Node × Except RaftError Unit)} {m : Node} {d₂ : PersistentState}
    (hrun : p.run [] d₁ = (.returned (m, .ok ()), d₂)) (hsync : InSync m d₂) (hlast : m.lastLogIndex ≠ m.commitIndex)
    (hmove : m.commitIndex < req.leaderCommit)
    (hall : p.Ensures True (fun _ => True)
      (fun r d' => InSync r.1 d' ∧ (r.2 = .ok () → r.1.commitIndex < req.leaderCommit)) d₁) :
    DivergesLast (p >>= n.concludeMerge req) d₁ := by
  obtain ⟨hone, hfails, hsucceeds⟩ := concludeMerge_cases (n := n) hmove
  have hlength : ((p >>= n.concludeMerge req).performed []).length = (p.performed []).length + 1 := by
    rw [StorageProgram.performed_bind (f := n.concludeMerge req) hrun, List.length_append, hone]
  refine ⟨fun k n' d' e hk hfailed => ?_, _, _, _, hlength.symm,
    (StorageProgram.exec_bind_of_returned hrun [.fails]).trans (hfails d₂), ?_⟩
  · rw [hlength] at hk
    by_cases hearly : k < (p.performed []).length
    · -- a call of the merging fails
      have hresumed := (StorageProgram.exec_bind_of_fails (n.concludeMerge req) hearly d₁).symm.trans hfailed
      rcases hmerge : p.exec StorageCall.effect (List.replicate k .succeeds ++ [.fails]) d₁ with
        ⟨⟨merged, e' | _⟩ | _ | _, d₃⟩ <;> rw [hmerge] at hresumed
      · cases hresumed
        exact (hall.of_returned (Or.inl trivial) hmerge).1
      · have hbelow := (hall.of_returned (Or.inl trivial) hmerge).2 rfl
        exact absurd hresumed ((concludeMerge_cases hbelow).2.2 [] d₃ n' d' e (Or.inl rfl))
      · cases hresumed
      · cases hresumed
    · -- the fault comes too late to matter
      obtain ⟨j, rfl⟩ : ∃ j, k = (p.performed []).length + (j + 1) := ⟨k - (p.performed []).length - 1, by omega⟩
      rw [List.replicate_add, List.append_assoc] at hfailed
      have hrest := (StorageProgram.exec_bind_of_returned hrun _).symm.trans hfailed
      exact absurd hrest (hsucceeds _ d₂ n' d' e (Or.inr ⟨_, rfl⟩))
  · rw [hsync.commitIndex]
    change m.commitIndex ≠ if req.leaderCommit < m.lastLogIndex then req.leaderCommit else m.lastLogIndex
    split <;> omega

/-- A request that moves the commit index. -/
theorem appendFromLeader_diverges (h : InSync n₁ d₁) (hmoves : n.CommitMoves req)
    (hindex : n₁.snapshotIndex = n.snapshotIndex) (hsnapTerm : n₁.snapshotTerm = n.snapshotTerm)
    (hlog : n₁.log = n.log) (hcommit : n₁.commitIndex = n.commitIndex) :
    DivergesLast (n₁.appendFromLeader req) d₁ := by
  have hfollowing : InSync n₁.asFollower d₁ := h.keep rfl rfl rfl rfl rfl rfl
  have hmove : n₁.commitIndex < req.leaderCommit := hcommit ▸ hmoves.commit
  have hmerging := hfollowing.merges (req.prevLogIndex + 1) req.entries
  rw [Node.appendFromLeader_eq (hmoves.prev.keep hindex hsnapTerm hlog)]
  obtain ⟨_, d₂, hrun, hsync, ⟨hfalse, _⟩ | ⟨log, hmerges, rfl⟩⟩ := StorageProgram.Ensures.returned (hmerging False)
  · exact hfalse.elim
  have hmerges' : n.MergesTo (req.prevLogIndex + 1) req.entries log := hmerges.keep hindex.symm hlog.symm
  have hlast : n₁.snapshotIndex + (log.length : Int) ≠ n₁.commitIndex := by
    rw [hindex, hcommit]
    exact (Node.commitMoves_iff hmoves.healthy hmoves.term hmoves.prev hmoves.commit hmerges').mp hmoves
  refine merge_diverges hrun hsync hlast hmove ((hmerging True).mono (fun _ h => h) ?_)
  rintro r d' ⟨hsync', ⟨_, herror⟩ | ⟨log', _, rfl⟩⟩
  · exact ⟨hsync', fun hok => absurd (herror.symm.trans hok) nofun⟩
  · exact ⟨hsync', fun _ => hmove⟩

/-- Handling such a request. -/
theorem handleAppendEntries_diverges (h : InSync n d) (hmoves : n.CommitMoves req) :
    DivergesLast (n.handleAppendEntries req) d := by
  have hhealthy : ¬n.degraded = true := by simp [hmoves.healthy]
  have hterm : ¬req.term < n.currentTerm := Int.not_lt.mpr hmoves.term
  by_cases hlt : n.currentTerm < req.term
  · -- saving the new term comes first
    have hmoved : InSync (n.adoptTerm req.term) { d with hard := (n.adoptTerm req.term).hardState } := h.save rfl rfl rfl
    obtain ⟨hbefore, k, n', d', hk, hrun, hne⟩ := hmoved.appendFromLeader_diverges hmoves rfl rfl rfl rfl
    rw [Node.handleAppendEntries, if_neg hhealthy, if_neg hterm, if_pos hlt]
    refine ⟨fun k n' d' e hk hfailed => ?_, k + 1, n', d', congrArg (· + 1) hk, hrun, hne⟩
    cases k with
    | zero =>
      cases hfailed
      exact h
    | succ k => exact hbefore k n' d' e (fun hsame => hk (congrArg (· + 1) hsame)) hfailed
  · rw [Node.handleAppendEntries, if_neg hhealthy, if_neg hterm, if_neg hlt]
    exact h.appendFromLeader_diverges hmoves rfl rfl rfl rfl

end InSync

namespace Operation

variable {n : Node} {d : PersistentState} {op : Operation}

/-- The operation moves the commit index of a follower. -/
def MovesCommit (n : Node) : Operation → Prop
  | .serve (.append req) => n.CommitMoves req
  | _ => False

/-- An answer that is not a success is an error. -/
theorem eq_error_of_not_ok {A B : Type} {f : A → B} {answer : Except RaftError A} (h : (answer.map f).isOk = false) :
    ∃ e, answer = .error e := by
  cases answer with
  | ok a => cases h
  | error e => exact ⟨e, rfl⟩

/-- An operation that does not move the commit index leaves memory in sync when it fails. -/
theorem attempt_inSync (h : InSync n d) (hstays : ¬op.MovesCommit n) :
    (op.attempt n).Ensures True (fun _ => True) (fun r d' => r.2 = false → InSync r.1 d') d := by
  match op, hstays with
  | .serve (.vote req), _ =>
    simp only [attempt, Node.handle, StorageProgram.ensures_bind]
    exact (h.handleRequestVote req).mono (fun _ h => h) fun r d' hsync _ => hsync
  | .serve (.append req), hstays =>
    simp only [attempt, Node.handle, StorageProgram.ensures_bind]
    refine (h.handleAppendEntries hstays).mono (fun _ h => h) fun r d' hsync hfalse => ?_
    obtain ⟨e, he⟩ := eq_error_of_not_ok hfalse
    exact hsync e he
  | .serve (.install req), _ =>
    simp only [attempt, Node.handle, StorageProgram.ensures_bind]
    refine (h.handleInstallSnapshot req).mono (fun _ h => h) fun r d' hsync hfalse => ?_
    obtain ⟨e, he⟩ := eq_error_of_not_ok hfalse
    exact hsync e he
  | .startCommand cmd, _ =>
    simp only [attempt, StorageProgram.ensures_bind]
    refine (h.startCommand cmd).mono (fun _ h => h) fun r d' hsync hfalse => ?_
    exact hsync (by simpa using hfalse)

/-- An operation that moves the commit index leaves memory in sync when it fails, unless its last storage call is the
one that fails. -/
theorem attempt_diverges (h : InSync n d) (hmoves : op.MovesCommit n) (k : ℕ) :
    (∀ n' d', (op.attempt n).run (List.replicate k .succeeds ++ [.fails]) d = (.returned (n', false), d') →
      InSync n' d') ↔ k + 1 ≠ ((op.attempt n).performed []).length := by
  match op, hmoves with
  | .serve (.append req), hmoves =>
    obtain ⟨hbefore, j, n₁, d₁, hj, hrun, hne⟩ := h.handleAppendEntries_diverges hmoves
    have hcalls : (((serve (.append req)).attempt n).performed []).length =
        ((n.handleAppendEntries req).performed []).length :=
      congrArg List.length ((StorageProgram.performed_map (n.handle (.append req)) _ []).trans
        (StorageProgram.performed_map (n.handleAppendEntries req) _ []))
    rw [hcalls]
    constructor
    · intro hall hk
      obtain rfl : k = j := by omega
      have hhandle : (n.handle (.append req)).run (List.replicate k .succeeds ++ [.fails]) d =
          (.returned (n₁, .error .storage), d₁) := StorageProgram.exec_bind_of_pure hrun rfl
      have hattempt : ((serve (.append req)).attempt n).run (List.replicate k .succeeds ++ [.fails]) d =
          (.returned (n₁, false), d₁) := StorageProgram.exec_bind_of_pure hhandle rfl
      exact hne (hall n₁ d₁ hattempt).commitIndex
    · intro hk n' d' hattempt
      obtain ⟨⟨n₂, answer⟩, hhandle, hpair⟩ := StorageProgram.returned_of_map hattempt
      obtain ⟨⟨n₃, response⟩, hserved, hanswer⟩ := StorageProgram.returned_of_map hhandle
      cases hanswer
      obtain ⟨rfl, hfalse⟩ := Prod.mk.inj hpair
      obtain ⟨e, rfl⟩ := eq_error_of_not_ok hfalse
      exact hbefore k n₃ d' e hk hserved

/-- One storage call of an operation fails. An operation that fails leaves memory in sync with storage, unless it moves
the commit index of a follower and its last call is the one that failed. -/
theorem failed_operations_in_sync (h : InSync n d) (op : Operation) (k : ℕ) :
    (∀ n' d', (op.attempt n).run (List.replicate k .succeeds ++ [.fails]) d = (.returned (n', false), d') →
      InSync n' d') ↔ ¬(op.MovesCommit n ∧ k + 1 = ((op.attempt n).performed []).length) := by
  by_cases hmoves : op.MovesCommit n
  · rw [attempt_diverges h hmoves, not_and]
    exact ⟨fun hk _ => hk, fun hk => hk hmoves⟩
  · refine ⟨fun _ hboth => hmoves hboth.1, fun _ n' d' hrun => ?_⟩
    exact StorageProgram.Ensures.of_returned (attempt_inSync h hmoves) (Or.inl trivial) hrun rfl

/-- A request for a vote in term 1. -/
def voteInFirstTerm : Operation :=
  .serve (.vote { term := 1, candidateID := "a", lastLogIndex := 0, lastLogTerm := 0 })

/-- A new node is asked for its vote and cannot save it: the vote is taken back. -/
theorem failed_vote_in_sync :
    ∃ n' d', (voteInFirstTerm.attempt (newNode "b" ["a", "c"] .empty)).run
        (List.replicate 1 .succeeds ++ [.fails]) .empty = (.returned (n', false), d') ∧
      n'.votedFor = "" ∧ InSync n' d' := by
  have hsync : InSync (newNode "b" ["a", "c"] .empty) .empty := ⟨rfl, rfl, rfl, rfl, rfl, rfl, rfl⟩
  exact ⟨_, _, rfl, rfl, (failed_operations_in_sync hsync voteInFirstTerm 1).mpr And.left _ _ rfl⟩

/-- A new node is sent a committed entry. Saving the commit index fails, and the node has it nevertheless. -/
theorem failed_append_keeps_commit :
    InSync (newNode "b" ["a", "c"] .empty) .empty ∧
      ∃ n' d', ((Operation.serve (.append {
          term := 1, leaderID := "a", prevLogIndex := 0, prevLogTerm := 0
          entries := [{ term := 1, type := entryCommand, command := [7] }], leaderCommit := 1 })).attempt
        (newNode "b" ["a", "c"] .empty)).run [.succeeds, .succeeds, .fails] .empty = (.returned (n', false), d') ∧
      n'.commitIndex = 1 ∧ d'.hard.commitIndex = 0 ∧ ¬InSync n' d' := by
  refine ⟨⟨rfl, rfl, rfl, rfl, rfl, rfl, rfl⟩, _, _, rfl, rfl, rfl, fun h => ?_⟩
  exact absurd h.commitIndex (by decide)

end Operation

end ConsensusLab.Raft
