import ConsensusLab.Foundation.ReplicatedLog.Safety
import ConsensusLab.Raft.ElectionMirror
import ConsensusLab.Raft.LogWindow

/-!
# Nodes, disks and messages of the replicated log

When all storage calls succeed, a node is a participant of the replicated log, seen
through its snapshot, and its disk holds all that `NewNode` needs to restore it.
Messages are backed by the records of the protocol, which only grow, so a message stays
backed however late it is delivered.

A leader's `matchIndex` is not always a confirmation: an answer to entries that lie
within the follower's snapshot confirms nothing. `Matching` says what is left in that
case, and it is enough, because such positions are committed or of an earlier term.
-/

namespace ConsensusLab.Raft

open Foundation

/-- The replicated log of a cluster. -/
abbrev RaftLog := LogState String Entry

/-- What the replicated log says about one participant. -/
def logView (a : RaftLog) (v : String) :
    ℕ × Standing × (ℕ → Option String) × List Entry × ℕ × ℕ :=
  (a.term v, a.standing v, fun t => a.ballot t v, a.log v, a.snap v, a.commit v)

/-- Steps of the replicated log that one node takes. -/
abbrev LogPath (m : Membership) (may : RaftLog → String → ℕ → Prop) (id : String) :=
  LocalPath (LogStep m.quorums may) logView id

/-- Steps that one node takes between two restarts. -/
structure LogRun (m : Membership) (may : RaftLog → String → ℕ → Prop) (id : String) (a a' : RaftLog) :
    Prop where
  path : LogPath m may id a a'
  advances : a.Advances a' id

/-- The fields of a node that say what it holds and how far it has come. -/
def Node.history (n : Node) : Int × Int × List LogEntry × Int × Option Snapshot × Int × Option Snapshot :=
  (n.snapshotIndex, n.snapshotTerm, n.log, n.commitIndex, n.snapshot, n.lastApplied, n.pendingSnapshot)

/-- Term and vote in memory are those of the protocol. -/
structure Ballots (a : RaftLog) (id : String) (n : Node) : Prop where
  term : n.currentTerm = a.term id
  vote : a.ballot (a.term id) id = ballotOf n.votedFor
  healthy : n.degraded = false

/-- Log, snapshot and indices in memory are those of the protocol. -/
structure Logs (a : RaftLog) (id : String) (n : Node) : Prop where
  window : n.Windows (a.log id) (a.snap id)
  commit : n.commitIndex = a.commit id
  snapshot : ∀ s, n.snapshot = some s →
    s.lastIncludedIndex = n.snapshotIndex ∧ s.lastIncludedTerm = n.snapshotTerm
  held : n.snapshotIndex ≠ 0 → n.snapshot ≠ none
  applied : n.lastApplied ≤ n.commitIndex
  pending : ∀ s, n.pendingSnapshot = some s → s.lastIncludedIndex ≤ n.snapshotIndex

/-- What a leader may conclude from a peer's match index: the peer has confirmed that much, or all of
it is committed or of an earlier term. -/
def Matching (a : RaftLog) (t : ℕ) (peer : String) (index : Int) : Prop :=
  index ≤ a.acked t peer ∨ ∀ k : ℕ, (k : Int) < index →
    k < a.leaderCommit t ∨ ∃ u < t, termAt (a.leaderLog t) k = some u

/-- A leader in office and its bookkeeping. -/
structure Presides (a : RaftLog) (id : String) (n : Node) : Prop where
  standing : a.standing id = .leader
  own : (a.log id).length ≤ a.acked (a.term id) id
  matched : ∀ p ∈ n.peers, Matching a (a.term id) p (n.matchIndex p)
  next : ∀ p ∈ n.peers, n.nextIndex p ≤ n.lastLogIndex + 1

/-- The disk holds what is in memory; the commit index only as long as there is no snapshot. -/
structure Saved (n : Node) (d : PersistentState) : Prop where
  term : d.hard.currentTerm = n.currentTerm
  vote : d.hard.votedFor = n.votedFor
  base : d.logBase = n.snapshotIndex
  log : d.log = n.log
  snapshot : d.snapshot = n.snapshot
  commit : d.snapshot = none → d.hard.commitIndex = n.commitIndex

/-- Memory and disk mirror the replicated log. -/
structure LogMirror (a : RaftLog) (id : String) (n : Node) (d : PersistentState) : Prop where
  ballots : Ballots a id n
  logs : Logs a id n
  leader : n.role = .leader → Presides a id n
  disk : Saved n d

/-- The node has become a follower, or has kept its role in its term. -/
def Persists (id : String) (a : RaftLog) (n : Node) (a' : RaftLog) (n' : Node) : Prop :=
  n'.role = .follower ∨
    (n'.role = n.role ∧ n'.currentTerm = n.currentTerm ∧ a'.standing id = a.standing id)

/-- What a section that wins no election leaves behind; a leader commits what a quorum has chosen. -/
def Steered (m : Membership) (may : RaftLog → String → ℕ → Prop) (a : RaftLog) (id : String)
    (n n' : Node) (d' : PersistentState) : Prop :=
  ∃ a', LogRun m may id a a' ∧ LogMirror a' id n' d' ∧ Persists id a n a' n' ∧
    n.lastApplied ≤ n'.lastApplied ∧ (n'.role = .leader → n.commitIndex < n'.commitIndex →
      a'.chosen (a'.term id) (a'.commit id - 1))

/-- A vote request reports the log that its candidate opened the poll with. -/
def VoteBacked (a : RaftLog) (caller : String) (req : RequestVoteRequest) : Prop :=
  ∃ (t : ℕ) (l : List Entry), req.term = t ∧ a.polled t caller = some l ∧
    req.lastLogIndex = l.length ∧ req.lastLogTerm = lastTerm l

/-- Entries sent by the leader of term `t`: its positions `p, …, m - 1`, and a commit position `k`. -/
structure AppendBacked (a : RaftLog) (caller : String) (req : AppendEntriesRequest) (t p m k : ℕ) :
    Prop where
  term : req.term = t
  leader : a.leader t = some caller
  within : p ≤ m ∧ m ≤ (a.leaderLog t).length
  prev : req.prevLogIndex = p
  prevTerm : req.prevLogTerm = lastTerm ((a.leaderLog t).take p)
  entries : req.entries = (((a.leaderLog t).take m).drop p).map Entry.kept
  commit : req.leaderCommit = k ∧ k ≤ m ∧ k ≤ a.leaderCommit t

/-- A snapshot sent by the leader of term `t`: it covers `k` committed positions of its log. -/
structure InstallBacked (a : RaftLog) (caller : String) (req : InstallSnapshotRequest) (t k : ℕ) :
    Prop where
  term : req.term = t
  leader : a.leader t = some caller
  index : req.lastIncludedIndex = k
  commit : k ≤ a.leaderCommit t
  lastTerm : req.lastIncludedTerm = lastTerm ((a.leaderLog t).take k)

/-- A call is backed by the records. -/
def CallBacked (a : RaftLog) (caller : String) : Request → Prop
  | .vote req => VoteBacked a caller req
  | .append req => ∃ t p m k, AppendBacked a caller req t p m k
  | .install req => ∃ t k, InstallBacked a caller req t k

/-- A response is backed by the records: votes by ballots, confirmations by confirmed positions, and
a rejection does not point behind the position it rejects. -/
def ReplyBacked (a : RaftLog) (callee : String) : Request → Reply → Prop
  | .vote req, .vote resp => resp.voteGranted = true →
      ∃ t : ℕ, req.term = t ∧ a.ballot t callee = some req.candidateID
  | .append req, .append resp =>
      (resp.success = true → ∃ t : ℕ, req.term = t ∧
        Matching a t callee (req.prevLogIndex + req.entries.length)) ∧
      (resp.success = false → resp.conflictIndex ≤ req.prevLogIndex + 1)
  | _, _ => True

variable {m : Membership} {may : RaftLog → String → ℕ → Prop} {a a' : RaftLog} {id : String}
  {n n' : Node} {d d' : PersistentState}

/-- Staying in place. -/
theorem LogRun.refl (a : RaftLog) : LogRun m may id a a :=
  ⟨.refl a, .refl a id⟩

/-- One run after another. -/
theorem LogRun.trans {a'' : RaftLog} (h : LogRun m may id a a') (h' : LogRun m may id a' a'') :
    LogRun m may id a a'' :=
  ⟨h.path.trans h'.path, h.advances.trans h'.advances⟩

/-- One step that others do not see and that does not lower the commit position. -/
theorem LogRun.single (hinv : LogInvariant m.quorums a) (hstep : LogStep m.quorums may a a')
    (hothers : ∀ w, w ≠ id → logView a' w = logView a w) (hcommit : a.commit id ≤ a'.commit id) :
    LogRun m may id a a' :=
  ⟨.single hstep hothers, hstep.advances hinv hcommit⟩

/-- The invariant along a path. -/
theorem LogPath.invariant (hinv : LogInvariant m.quorums a) (h : LogPath m may id a a') :
    LogInvariant m.quorums a' := by
  have hpath := h.path
  clear h
  induction hpath with
  | refl => exact hinv
  | tail _ hstep ih => exact ih.step hstep

/-- Growth along a path. -/
theorem LogPath.grows (hinv : LogInvariant m.quorums a) (h : LogPath m may id a a') : a.Grows a' := by
  have hpath := h.path
  clear h
  suffices h : LogInvariant m.quorums a' ∧ a.Grows a' from h.2
  induction hpath with
  | refl => exact ⟨hinv, .refl a⟩
  | tail _ hstep ih => exact ⟨ih.1.step hstep, ih.2.trans (hstep.grows ih.1)⟩

/-- Only the history of a node matters for its logs, and only the participant's own part of the
protocol. -/
theorem Logs.keep (h : Logs a id n) (hn : n'.history = n.history) (hlog : a'.log id = a.log id)
    (hsnap : a'.snap id = a.snap id) (hcommit : a'.commit id = a.commit id) : Logs a' id n' := by
  simp only [Node.history, Prod.mk.injEq] at hn
  obtain ⟨h₁, h₂, h₃, h₄, h₅, h₆, h₇⟩ := hn
  refine ⟨?_, ?_, ?_, ?_, ?_, ?_⟩
  · rw [hlog, hsnap]
    exact h.window.keep h₁ h₂ h₃
  · rw [h₄, hcommit]
    exact h.commit
  · rw [h₁, h₂, h₅]
    exact h.snapshot
  · rw [h₁, h₅]
    exact h.held
  · rw [h₄, h₆]
    exact h.applied
  · rw [h₁, h₇]
    exact h.pending

/-- Term and vote after a step that changed them. -/
theorem Ballots.of_term {t : ℕ} (hself : a.term id = t) (hvote : a.ballot t id = ballotOf n.votedFor)
    (hterm : n.currentTerm = t) (hhealthy : n.degraded = false) : Ballots a id n := by
  subst hself
  exact ⟨hterm, hvote, hhealthy⟩

/-- Logs after a step that changed them. -/
theorem Logs.of_window {l : List Entry} {k c : ℕ} (hlog : a.log id = l) (hsnap : a.snap id = k)
    (hcommit : a.commit id = c) (hwindow : n.Windows l k) (hindex : n.commitIndex = c)
    (hsnapshot : ∀ s, n.snapshot = some s →
      s.lastIncludedIndex = n.snapshotIndex ∧ s.lastIncludedTerm = n.snapshotTerm)
    (hheld : n.snapshotIndex ≠ 0 → n.snapshot ≠ none) (happlied : n.lastApplied ≤ n.commitIndex)
    (hpending : ∀ s, n.pendingSnapshot = some s → s.lastIncludedIndex ≤ n.snapshotIndex) :
    Logs a id n := by
  subst hlog hsnap hcommit
  exact ⟨hwindow, hindex, hsnapshot, hheld, happlied, hpending⟩

/-- Saving the hard state leaves nothing unsaved in it. -/
theorem Saved.save (h : Saved n d) (hn : n'.history = n.history)
    (hhard : d'.hard.currentTerm = n'.currentTerm ∧ d'.hard.votedFor = n'.votedFor ∧
      d'.hard.commitIndex = n'.commitIndex)
    (hdisk : d'.logBase = d.logBase ∧ d'.log = d.log ∧ d'.snapshot = d.snapshot) : Saved n' d' := by
  simp only [Node.history, Prod.mk.injEq] at hn
  obtain ⟨h₁, _, h₃, _, h₅, _⟩ := hn
  exact ⟨hhard.1, hhard.2.1, by rw [hdisk.1, h.base, h₁], by rw [hdisk.2.1, h.log, h₃],
    by rw [hdisk.2.2, h.snapshot, h₅], fun _ => hhard.2.2⟩

/-- Nothing is unsaved when only other fields change. -/
theorem Saved.keep (h : Saved n d) (hn : n'.history = n.history) (hterm : n'.currentTerm = n.currentTerm)
    (hvote : n'.votedFor = n.votedFor) : Saved n' d := by
  simp only [Node.history, Prod.mk.injEq] at hn
  obtain ⟨h₁, _, h₃, h₄, h₅, _⟩ := hn
  exact ⟨by rw [h.term, hterm], by rw [h.vote, hvote], by rw [h.base, h₁], by rw [h.log, h₃],
    by rw [h.snapshot, h₅], fun hnone => by rw [h.commit hnone, h₄]⟩

/-- Match indices stay meaningful. -/
theorem Matching.mono {t : ℕ} {peer : String} {index : Int} (h : Matching a t peer index)
    (hled : a.Led t) (hgrows : a.Grows a') : Matching a' t peer index := by
  rcases h with hacked | hold
  · have := hgrows.acked t peer
    exact Or.inl (by omega)
  · refine Or.inr fun k hk => ?_
    rcases hold k hk with hcommit | ⟨u, hu, hterm⟩
    · exact Or.inl (hcommit.trans_le (hgrows.leaderCommit t hled))
    · refine Or.inr ⟨u, hu, ?_⟩
      obtain ⟨e, he, hstamp⟩ := Option.map_eq_some_iff.mp hterm
      rw [termAt, hgrows.toExtends.entry hled he, Option.map_some, hstamp]

/-- A participant in office leads its term. -/
theorem Presides.led (h : Presides a id n) (hinv : LogInvariant m.quorums a) : a.Led (a.term id) :=
  hinv.led_of_office h.standing

/-- A leader that does nothing stays in office while others act. -/
theorem Presides.mono (h : Presides a id n) (hinv : LogInvariant m.quorums a) (hgrows : a.Grows a')
    (hview : logView a' id = logView a id) : Presides a' id n := by
  have hled := h.led hinv
  simp only [logView, Prod.mk.injEq] at hview
  obtain ⟨hterm, hst, _, hlog, _⟩ := hview
  refine ⟨hst.trans h.standing, ?_, fun p hp => ?_, h.next⟩
  · rw [hlog, hterm]
    exact h.own.trans (hgrows.acked _ _)
  · rw [hterm]
    exact (h.matched p hp).mono hled hgrows

/-- A node that does nothing mirrors the replicated log while others act. -/
theorem LogMirror.mono (h : LogMirror a id n d) (hinv : LogInvariant m.quorums a) (hgrows : a.Grows a')
    (hview : logView a' id = logView a id) : LogMirror a' id n d := by
  have hparts := hview
  simp only [logView, Prod.mk.injEq] at hparts
  obtain ⟨hterm, _, hballot, hlog, hsnap, hcommit⟩ := hparts
  refine ⟨⟨?_, ?_, h.ballots.healthy⟩, h.logs.keep rfl hlog hsnap hcommit,
    fun hl => (h.leader hl).mono hinv hgrows hview, h.disk⟩
  · rw [hterm, h.ballots.term]
  · rw [hterm, ← h.ballots.vote]
    exact congrFun hballot _

/-- Entries and snapshots of a leader stay backed. -/
theorem CallBacked.mono {caller : String} {request : Request} (h : CallBacked a caller request)
    (hinv : LogInvariant m.quorums a) (hgrows : a.Grows a') : CallBacked a' caller request := by
  have hled : ∀ {t}, a.leader t = some caller → a.Led t := by
    intro t ht
    rw [LogState.Led, ht]
    exact Option.some_ne_none caller
  cases request with
  | vote req =>
    obtain ⟨t, l, hterm, hpolled, hlast⟩ := h
    exact ⟨t, l, hterm, hgrows.polled t caller l hpolled, hlast⟩
  | append req =>
    obtain ⟨t, p, mm, k, h⟩ := h
    have hlog := hgrows.leaderLog t (hled h.leader)
    have hcommit := hgrows.leaderCommit t (hled h.leader)
    obtain ⟨more, hmore⟩ := hlog
    have hlen := h.within
    refine ⟨t, p, mm, k, h.term, hgrows.leader t caller h.leader, ?_, h.prev, ?_, ?_, ?_⟩
    · rw [← hmore, List.length_append]
      omega
    · rw [← hmore, List.take_append_of_le_length (by omega)]
      exact h.prevTerm
    · rw [← hmore, List.take_append_of_le_length (by omega)]
      exact h.entries
    · exact ⟨h.commit.1, h.commit.2.1, h.commit.2.2.trans hcommit⟩
  | install req =>
    obtain ⟨t, k, h⟩ := h
    have hcommit := hgrows.leaderCommit t (hled h.leader)
    have hlen := hinv.leader_commit_le t (hled h.leader)
    have hk := h.commit
    obtain ⟨more, hmore⟩ := hgrows.leaderLog t (hled h.leader)
    refine ⟨t, k, h.term, hgrows.leader t caller h.leader, h.index, hk.trans hcommit, ?_⟩
    rw [← hmore, List.take_append_of_le_length (by omega)]
    exact h.lastTerm

/-- Responses stay backed. -/
theorem ReplyBacked.mono {caller callee : String} {request : Request} {reply : Reply}
    (h : ReplyBacked a callee request reply) (hcall : CallBacked a caller request)
    (hgrows : a.Grows a') : ReplyBacked a' callee request reply := by
  cases request <;> cases reply <;> try trivial
  case vote.vote req resp =>
    intro hgranted
    obtain ⟨t, hterm, hballot⟩ := h hgranted
    exact ⟨t, hterm, hgrows.ballot t callee _ hballot⟩
  case append.append req resp =>
    obtain ⟨t, p, mm, k, hback⟩ := hcall
    have hled : a.Led t := by
      rw [LogState.Led, hback.leader]
      exact Option.some_ne_none caller
    refine ⟨fun hsuccess => ?_, h.2⟩
    obtain ⟨u, hterm, hmatch⟩ := h.1 hsuccess
    have hut : u = t := Int.ofNat_inj.mp (hterm.symm.trans hback.term)
    exact ⟨u, hterm, hmatch.mono (hut ▸ hled) hgrows⟩

/-- Changes outside the mirrored fields. -/
theorem LogMirror.keep (h : LogMirror a id n d) (hn : n'.history = n.history)
    (hterm : n'.currentTerm = n.currentTerm) (hvote : n'.votedFor = n.votedFor)
    (hdegraded : n'.degraded = n.degraded)
    (hleader : n'.role = .leader → n.role = .leader ∧ n'.peers = n.peers ∧
      n'.matchIndex = n.matchIndex ∧ n'.nextIndex = n.nextIndex) : LogMirror a id n' d := by
  refine ⟨⟨by rw [hterm, h.ballots.term], by rw [hvote, h.ballots.vote],
    by rw [hdegraded, h.ballots.healthy]⟩, h.logs.keep hn rfl rfl rfl, fun hl => ?_,
    h.disk.keep hn hterm hvote⟩
  obtain ⟨hl', hpeers, hmatch, hnext⟩ := hleader hl
  have hp := h.leader hl'
  simp only [Node.history, Prod.mk.injEq] at hn
  refine ⟨hp.standing, hp.own, ?_, ?_⟩
  · rw [hpeers, hmatch]
    exact hp.matched
  · rw [hpeers, hnext, Node.lastLogIndex, hn.1, hn.2.2.1]
    exact hp.next

/-- A section that leaves everything as it is. -/
theorem LogMirror.unchanged (h : LogMirror a id n d) : Steered m may a id n n d :=
  ⟨a, .refl a, h, Or.inr ⟨rfl, rfl, rfl⟩, Int.le_refl _, fun _ hlt => absurd hlt (Int.lt_irrefl _)⟩

/-- A section that only changes other fields. -/
theorem LogMirror.steered (h : LogMirror a id n d) (hn : n'.history = n.history)
    (hterm : n'.currentTerm = n.currentTerm) (hvote : n'.votedFor = n.votedFor)
    (hdegraded : n'.degraded = n.degraded) (hrole : n'.role = n.role) (hpeers : n'.peers = n.peers)
    (hmatch : n'.matchIndex = n.matchIndex) (hnext : n'.nextIndex = n.nextIndex) :
    Steered m may a id n n' d := by
  refine ⟨a, .refl a, h.keep hn hterm hvote hdegraded fun hl => ⟨hrole ▸ hl, hpeers, hmatch, hnext⟩,
    Or.inr ⟨hrole, hterm, rfl⟩, ?_⟩
  simp only [Node.history, Prod.mk.injEq] at hn
  rw [hn.2.2.2.1, hn.2.2.2.2.2.1]
  exact ⟨Int.le_refl _, fun _ hlt => absurd hlt (Int.lt_irrefl _)⟩

/-- Moving to a later term, and saving it. -/
theorem LogMirror.observe (hinv : LogInvariant m.quorums a) (h : LogMirror a id n d)
    (hlater : n.currentTerm < n'.currentTerm) (hn : n'.history = n.history) (hvote : n'.votedFor = "")
    (hdegraded : n'.degraded = n.degraded) (hrole : n'.role ≠ .leader)
    (hhard : d'.hard.currentTerm = n'.currentTerm ∧ d'.hard.votedFor = n'.votedFor ∧
      d'.hard.commitIndex = n'.commitIndex)
    (hdisk : d'.logBase = d.logBase ∧ d'.log = d.log ∧ d'.snapshot = d.snapshot) :
    ∃ a', LogRun m may id a a' ∧ LogMirror a' id n' d' := by
  obtain ⟨t, ht⟩ : ∃ t : ℕ, n'.currentTerm = t := by
    have := h.ballots.term
    exact ⟨n'.currentTerm.toNat, by omega⟩
  have hlt : a.term id < t := by
    have := h.ballots.term
    omega
  refine ⟨_, .single hinv (.observe a id t hlt) (fun w hw => ?_) (le_refl _),
    .of_term (Function.update_self ..) ?_ ht ?_, h.logs.keep hn rfl rfl rfl, fun hl => absurd hl hrole,
    h.disk.save hn hhard hdisk⟩
  · simp only [logView, Function.update_of_ne hw]
  · rw [hvote]
    exact hinv.election.ballot_above hlt
  · rw [hdegraded, h.ballots.healthy]

end ConsensusLab.Raft
