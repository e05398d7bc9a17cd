import ConsensusLab.Foundation.Histories
import ConsensusLab.Raft.HandlerRules
import ConsensusLab.Raft.ReplicationRules
import ConsensusLab.Raft.ServerRuns

/-!
# Votes are irrevocable

A node tells a candidate that it has its vote only after the vote is on the disk, and
never writes another vote of the same term there. What makes this delicate is a node that
could not save its state: its memory may then be ahead of its disk, and it must not write
what it remembers back under an old term. So a run of one server keeps its word whatever
it is asked and told, whichever storage calls fail and whenever the process crashes.

Two limits are set by the types of the source. A term is an `int64`, and an increment past
the largest one would lead back to early terms. The name of the candidate that has the vote
is a string, and an empty one means that nobody has: a candidate without a name could have
a vote that is then given again.
-/

namespace ConsensusLab.Raft

open Foundation StorageProgram

/-- A stored ballot may be replaced by another: of a later term, or of the same term if the vote is the same or
the first one. -/
def HardState.Precedes (hard hard' : HardState) : Prop :=
  hard.currentTerm < hard'.currentTerm ∨
    (hard'.currentTerm = hard.currentTerm ∧ (hard.votedFor = "" ∨ hard'.votedFor = hard.votedFor))

/-- The memory of a node is not behind its disk in its term, and agrees with it on the ballot unless the node is
degraded and not the leader. -/
structure Node.BallotSaved (n : Node) (d : PersistentState) : Prop where
  ahead : d.hard.currentTerm ≤ n.currentTerm
  saved : n.degraded = false ∨ n.role = .leader →
    n.currentTerm = d.hard.currentTerm ∧ n.votedFor = d.hard.votedFor

/-- What a section does to the ballot of a node, in memory and on disk. No section makes a degraded candidate. -/
structure Polled (n : Node) (d : PersistentState) (n' : Node) (d' : PersistentState) : Prop where
  ballot : n'.BallotSaved d'
  stored : d.hard.Precedes d'.hard
  sober : n'.role = .candidate → n'.degraded = true → n.role = .candidate ∧ n.degraded = true

/-- Leave a section where the disk has at most a later ballot. -/
abbrev Interrupted (d d' : PersistentState) : Prop := d.hard.Precedes d'.hard

variable {n n' n₁ : Node} {d d' d₁ : PersistentState}

/-- A ballot may stay. -/
theorem HardState.Precedes.refl (hard : HardState) : hard.Precedes hard := Or.inr ⟨rfl, Or.inr rfl⟩

/-- One replacement after another. -/
theorem HardState.Precedes.trans {hard hard' hard'' : HardState} (h : hard.Precedes hard')
    (h' : hard'.Precedes hard'') : hard.Precedes hard'' := by
  rcases h with hlt | ⟨hterm, hvote⟩
  · rcases h' with hlt' | ⟨hterm', _⟩
    · exact Or.inl (Int.lt_trans hlt hlt')
    · exact Or.inl (hterm' ▸ hlt)
  · rcases h' with hlt' | ⟨hterm', hvote'⟩
    · exact Or.inl (hterm ▸ hlt')
    · refine Or.inr ⟨hterm'.trans hterm, ?_⟩
      rcases hvote with hnone | hsame
      · exact Or.inl hnone
      · exact hvote'.imp (fun hnone => hsame ▸ hnone) fun hsame' => hsame'.trans hsame

/-- What has just been saved is saved. -/
theorem Node.BallotSaved.of_hard (hhard : d.hard = n.hardState) : n.BallotSaved d := by
  have hterm : d.hard.currentTerm = n.currentTerm := by rw [hhard]; rfl
  have hvote : d.hard.votedFor = n.votedFor := by rw [hhard]; rfl
  exact ⟨Int.le_of_eq hterm, fun _ => ⟨hterm.symm, hvote.symm⟩⟩

namespace Polled

/-- The ballot stays as it is. -/
theorem same (h : n.BallotSaved d) (hterm : n'.currentTerm = n.currentTerm) (hvote : n'.votedFor = n.votedFor)
    (hhard : d'.hard = d.hard) (hrole : n'.role = n.role ∨ n'.role = .follower) (hdegraded : n'.degraded = n.degraded) :
    Polled n d n' d' where
  ballot := by
    refine ⟨by rw [hhard, hterm]; exact h.ahead, fun hwhen => ?_⟩
    rw [hterm, hvote, hhard]
    refine h.saved (hwhen.imp (fun hhealthy => hdegraded ▸ hhealthy) fun hleads => ?_)
    rcases hrole with hsame | hfollower
    · exact hsame ▸ hleads
    · cases hfollower.symm.trans hleads
  stored := by
    rw [hhard]
    exact .refl _
  sober hcandidate hdegraded' := by
    rcases hrole with hsame | hfollower
    · exact ⟨hsame ▸ hcandidate, hdegraded ▸ hdegraded'⟩
    · cases hfollower.symm.trans hcandidate

/-- Nothing happens. -/
theorem refl (h : n.BallotSaved d) : Polled n d n d := same h rfl rfl rfl (Or.inl rfl) rfl

/-- One change after another. -/
theorem trans (h : Polled n d n₁ d₁) (h' : Polled n₁ d₁ n' d') : Polled n d n' d' where
  ballot := h'.ballot
  stored := h.stored.trans h'.stored
  sober hcandidate hdegraded := by
    obtain ⟨hcandidate₁, hdegraded₁⟩ := h'.sober hcandidate hdegraded
    exact h.sober hcandidate₁ hdegraded₁

/-- A ballot that the memory agrees on is saved again, with other fields of the hard state. -/
theorem resaved (h : Polled n d n₁ d₁) (hagrees : n₁.degraded = false ∨ n₁.role = .leader)
    (hterm : n'.currentTerm = n₁.currentTerm) (hvote : n'.votedFor = n₁.votedFor)
    (hhard : d'.hard = n'.hardState) (hrole : n'.role = n₁.role) (hdegraded : n'.degraded = n₁.degraded) :
    Polled n d n' d' := by
  obtain ⟨hsaved, hvoted⟩ := h.ballot.saved hagrees
  refine h.trans ⟨.of_hard hhard, Or.inr ⟨?_, Or.inr ?_⟩, ?_⟩
  · rw [hhard, ← hsaved, ← hterm]
    rfl
  · rw [hhard, ← hvoted, ← hvote]
    rfl
  · rw [hrole, hdegraded]
    exact fun hcandidate hdegraded => ⟨hcandidate, hdegraded⟩

/-- A ballot of a later term than the node's is saved. -/
theorem moved (h : n.BallotSaved d) (hlater : n.currentTerm < n'.currentTerm) (hhard : d'.hard = n'.hardState)
    (hsober : n'.role = .candidate → n'.degraded = true → n.role = .candidate ∧ n.degraded = true) :
    Polled n d n' d' where
  ballot := .of_hard hhard
  stored := by
    rw [hhard]
    exact Or.inl (Int.lt_of_le_of_lt h.ahead hlater)
  sober := hsober

end Polled

section Sections

/-- A granted vote is on the disk. -/
def VoteStored (candidate : String) (answer : Except RaftError RequestVoteResponse) (d : PersistentState) : Prop :=
  ∀ resp, answer = .ok resp → resp.voteGranted = true →
    d.hard.currentTerm = resp.term ∧ d.hard.votedFor = candidate

/-- Deciding on a vote. -/
theorem polled_castVote (h : Polled n d n₁ d₁) (hhealthy : n₁.degraded = false) (req : RequestVoteRequest) :
    (n₁.castVote req).Ensures True (Interrupted d)
      (fun r d' => Polled n d r.1 d' ∧ VoteStored req.candidateID r.2 d') d₁ := by
  refine Node.castVote_rule ⟨h, ?_⟩ fun hopen _ => ⟨fun _ => ⟨h.stored, h, ?_⟩, h.trans ⟨.of_hard rfl, ?_, ?_⟩, ?_⟩
  · rintro _ ⟨⟩ ⟨⟩
  · rintro _ ⟨⟩
  · obtain ⟨hterm, hvote⟩ := h.ballot.saved (Or.inl hhealthy)
    exact Or.inr ⟨hterm, hvote ▸ hopen.imp id fun hsame => hsame.symm⟩
  · exact fun hcandidate hdegraded => ⟨hcandidate, hdegraded⟩
  · rintro _ ⟨⟩ _
    exact ⟨rfl, rfl⟩

/-- Handling a vote request. -/
theorem polled_handleRequestVote (h : n.BallotSaved d) (req : RequestVoteRequest) :
    (n.handleRequestVote req).Ensures True (Interrupted d)
      (fun r d' => Polled n d r.1 d' ∧ VoteStored req.candidateID r.2 d') d := by
  refine Node.handleRequestVote_rule (fun _ => ⟨.refl h, ?_⟩) (fun _ _ => ⟨.refl h, ?_⟩) (fun hhealthy hlater => ?_)
    fun hhealthy _ => polled_castVote (.refl h) hhealthy req
  · rintro _ ⟨⟩
  · rintro _ ⟨⟩ ⟨⟩
  · have hmoved : Polled n d { n.adoptTerm req.term with role := .follower }
        { d with hard := (n.adoptTerm req.term).hardState } :=
      .moved h hlater rfl fun hcandidate => by cases hcandidate
    refine ⟨fun _ => ⟨.refl _, .refl h, ?_⟩, polled_castVote hmoved hhealthy req⟩
    rintro _ ⟨⟩

/-- Adopting a later term. -/
theorem polled_adoptTerm (h : n.BallotSaved d) {term : Int} (hlater : n.currentTerm < term) :
    Polled n d (n.adoptTerm term) { d with hard := (n.adoptTerm term).hardState } :=
  .moved h hlater rfl fun hcandidate hdegraded => ⟨hcandidate, hdegraded⟩

/-- Merging entries leaves the ballot alone. -/
theorem polled_mergeEntries (h : Polled n d n₁ d₁) (index : Int) (entries : List LogEntry) :
    (n₁.mergeEntries index entries).Ensures True (Interrupted d)
      (fun r d' => Polled n d r.1 d' ∧ r.1.degraded = n₁.degraded) d₁ := by
  have hkept : ∀ (log : List LogEntry) {d₂ : PersistentState}, d₂.hard = d₁.hard →
      Polled n d { n₁ with log := log } d₂ :=
    fun log d₂ hhard => h.trans (.same h.ballot rfl rfl hhard (Or.inl rfl) rfl)
  exact Node.mergeEntries_rule (fun _ => ⟨h, rfl⟩)
    (fun _ _ _ _ _ _ _ => ⟨fun _ => ⟨h.stored, h, rfl⟩, hkept _ rfl, rfl⟩)
    fun _ _ _ _ _ _ _ _ => ⟨fun _ => ⟨h.stored, h, rfl⟩, fun _ => ⟨h.stored, hkept _ rfl, rfl⟩, hkept _ rfl, rfl⟩

/-- Handling entries in the current term. -/
theorem polled_appendFromLeader (h : Polled n d n₁ d₁) (hhealthy : n₁.degraded = false) (req : AppendEntriesRequest) :
    (n₁.appendFromLeader req).Ensures True (Interrupted d) (fun r d' => Polled n d r.1 d') d₁ := by
  have hfollows : Polled n d n₁.asFollower d₁ := h.trans (.same h.ballot rfl rfl rfl (Or.inr rfl) rfl)
  refine Node.appendFromLeader_rule (fun _ _ => hfollows) fun _ =>
    (polled_mergeEntries hfollows _ _).mono (fun _ h => h) ?_
  rintro ⟨merged, _⟩ d₂ ⟨hmerged, hsame⟩
  have hhealthy' : merged.degraded = false := hsame.trans hhealthy
  refine ⟨fun _ _ => hmerged, fun _ => Node.followCommit_rule (fun _ => ⟨fun _ _ => hmerged, fun _ => hmerged⟩) fun _ =>
    ⟨fun _ => ⟨hmerged.stored, fun _ _ => ?_, fun _ => ?_⟩, fun _ _ => ?_, fun _ => ?_⟩⟩
  · exact hmerged.trans (.same hmerged.ballot rfl rfl rfl (Or.inl rfl) rfl)
  · exact hmerged.trans (.same hmerged.ballot rfl rfl rfl (Or.inl rfl) rfl)
  · exact hmerged.resaved (Or.inl hhealthy') rfl rfl rfl rfl rfl
  · exact hmerged.resaved (Or.inl hhealthy') rfl rfl rfl rfl rfl

/-- Handling entries. -/
theorem polled_handleAppendEntries (h : n.BallotSaved d) (req : AppendEntriesRequest) :
    (n.handleAppendEntries req).Ensures True (Interrupted d) (fun r d' => Polled n d r.1 d') d := by
  refine Node.handleAppendEntries_rule (fun _ => .refl h) (fun _ _ => .refl h) (fun hhealthy hlater => ?_)
    fun hhealthy _ => polled_appendFromLeader (.refl h) hhealthy req
  exact ⟨fun _ => ⟨.refl _, .refl h⟩, polled_appendFromLeader (polled_adoptTerm h hlater) hhealthy req⟩

/-- Handling a snapshot in the current term. -/
theorem polled_installFromLeader (h : Polled n d n₁ d₁) (hhealthy : n₁.degraded = false)
    (req : InstallSnapshotRequest) :
    (n₁.installFromLeader req).Ensures True (Interrupted d) (fun r d' => Polled n d r.1 d') d₁ := by
  have hfollows : Polled n d n₁.asFollower d₁ := h.trans (.same h.ballot rfl rfl rfl (Or.inr rfl) rfl)
  have hkept : ∀ {d₂ : PersistentState}, d₂.hard = d₁.hard →
      Polled n d (n₁.asFollower.adoptSnapshot req.snapshot).notifyApply d₂ :=
    fun hhard => hfollows.trans (.same hfollows.ballot rfl rfl hhard (Or.inl rfl) rfl)
  have hsaved : ∀ {d₂ : PersistentState}, d₂.hard = (n₁.asFollower.adoptSnapshot req.snapshot).hardState →
      Polled n d (n₁.asFollower.adoptSnapshot req.snapshot).notifyApply d₂ :=
    fun hhard => hfollows.resaved (Or.inl hhealthy) rfl rfl hhard rfl rfl
  refine Node.installFromLeader_rule (fun _ => hfollows) fun _ => ⟨fun _ => ⟨h.stored, hfollows⟩, ?_⟩
  have hstored : d.hard.Precedes (n₁.asFollower.adoptSnapshot req.snapshot).hardState :=
    @Polled.stored _ _ _ { d₁ with hard := (n₁.asFollower.adoptSnapshot req.snapshot).hardState } (hsaved rfl)
  exact Node.applySnapshot_rule ⟨fun _ => ⟨h.stored, hkept rfl⟩, hkept rfl⟩
    fun _ => ⟨fun _ => ⟨hstored, hsaved rfl⟩, hsaved rfl⟩

/-- Handling a snapshot. -/
theorem polled_handleInstallSnapshot (h : n.BallotSaved d) (req : InstallSnapshotRequest) :
    (n.handleInstallSnapshot req).Ensures True (Interrupted d) (fun r d' => Polled n d r.1 d') d := by
  refine Node.handleInstallSnapshot_rule (fun _ => .refl h) (fun _ _ => .refl h) (fun hhealthy hlater => ?_)
    fun hhealthy _ => polled_installFromLeader (.refl h) hhealthy req
  exact ⟨fun _ => ⟨.refl _, .refl h⟩, polled_installFromLeader (polled_adoptTerm h hlater) hhealthy req⟩

/-- Starting an election; the vote that the node asks for others to join is on the disk. -/
theorem polled_startElection (h : n.BallotSaved d) :
    n.startElection.Ensures True (Interrupted d) (fun r d' => Polled n d r.1 d' ∧ ∀ req, r.2 = some req →
      d'.hard.currentTerm = req.term ∧ d'.hard.votedFor = req.candidateID ∧ req.candidateID = n.id) d := by
  refine Node.startElection_rule (fun _ => ⟨.refl _, ⟨⟨h.ahead, ?_⟩, .refl _, ?_⟩, ?_⟩)
    ⟨.moved h (Int.lt_succ _) rfl fun hcandidate hdegraded => ⟨hcandidate, hdegraded⟩, ?_⟩
  · rintro (hhealthy | hleads)
    · cases hhealthy
    · cases hleads
  · exact fun hcandidate => by cases hcandidate
  · rintro _ ⟨⟩
  · rintro _ ⟨⟩
    exact ⟨rfl, rfl, rfl⟩

/-- Stepping down. A node that could not save the later term keeps it in memory and is degraded. -/
theorem polled_stepDown (h : n.BallotSaved d) {term : Int} (hlater : n.currentTerm < term) :
    (n.stepDown term).Ensures True (Interrupted d) (fun n' d' => Polled n d n' d') d := by
  refine Node.stepDown_rule (fun _ => ⟨.refl _, ⟨Int.le_trans h.ahead (Int.le_of_lt hlater), ?_⟩, .refl _, ?_⟩)
    (.moved h hlater rfl fun hcandidate => by cases hcandidate)
  · rintro (hhealthy | hleads)
    · cases hhealthy
    · cases hleads
  · exact fun hcandidate => by cases hcandidate

/-- Reading a vote. -/
theorem polled_handleVoteResponse (h : n.BallotSaved d) (hsober : n.role = .candidate → n.degraded = false)
    (votes majority : ℕ) (resp : RequestVoteResponse) :
    (n.handleVoteResponse votes majority resp).Ensures True (Interrupted d) (fun r d' => Polled n d r.1 d') d := by
  refine Node.handleVoteResponse_rule (fun hlater => polled_stepDown h hlater) (fun _ _ => .refl h)
    (fun _ hcandidate _ => ⟨⟨h.ahead, fun _ => h.saved (Or.inl (hsober hcandidate))⟩, .refl _, ?_⟩) fun _ _ => .refl h
  exact fun hcandidate => by cases hcandidate

/-- Advancing the commit index. -/
theorem polled_advanceCommitIndex (h : Polled n d n₁ d₁) (hleads : n₁.role = .leader) :
    n₁.advanceCommitIndex.Ensures True (Interrupted d) (fun r d' => Polled n d r.1 d') d₁ := by
  refine Node.advanceCommitIndex_rule (fun _ => h.stored) h fun i _ => ⟨fun _ => ?_, ?_⟩
  · refine h.trans ⟨⟨h.ballot.ahead, fun _ => h.ballot.saved (Or.inr hleads)⟩, .refl _, fun hcandidate => ?_⟩
    cases hleads.symm.trans hcandidate
  · exact h.resaved (Or.inr hleads) rfl rfl rfl rfl rfl

/-- Processing an AppendEntries response. -/
theorem polled_handleAppendEntriesResponse (h : n.BallotSaved d) (peerID : String) (req : AppendEntriesRequest)
    (resp : AppendEntriesResponse) :
    (n.handleAppendEntriesResponse peerID req resp).Ensures True (Interrupted d) (fun r d' => Polled n d r.1 d') d := by
  refine Node.handleAppendEntriesResponse_rule (fun hlater => polled_stepDown h hlater) (fun _ _ => .refl h)
    (fun _ _ _ _ => .same h rfl rfl rfl (Or.inl rfl) rfl) fun _ hleads _ _ => ?_
  exact polled_advanceCommitIndex (.same h rfl rfl rfl (Or.inl rfl) rfl) hleads

/-- Processing an InstallSnapshot response. -/
theorem polled_handleInstallSnapshotResponse (h : n.BallotSaved d) (peerID : String) (req : InstallSnapshotRequest)
    (resp : InstallSnapshotResponse) :
    (n.handleInstallSnapshotResponse peerID req resp).Ensures True (Interrupted d) (fun n' d' => Polled n d n' d') d :=
  Node.handleInstallSnapshotResponse_rule (fun hlater => polled_stepDown h hlater) (fun _ _ => .refl h)
    fun _ _ _ => .same h rfl rfl rfl (Or.inl rfl) rfl

/-- Starting a command. -/
theorem polled_startCommand (h : n.BallotSaved d) (cmd : Bytes) :
    (n.startCommand cmd).Ensures True (Interrupted d) (fun r d' => Polled n d r.1 d') d := by
  refine Node.startCommand_rule (fun _ => .refl h) (fun _ _ _ => ⟨.refl _, .refl h⟩) fun _ hleads => ?_
  have happended : Polled n d (n.appended cmd) { d with log := d.log ++ [n.newEntry cmd] } :=
    .same h rfl rfl rfl (Or.inl rfl) rfl
  refine (polled_advanceCommitIndex happended hleads).mono (fun _ h => h) fun moved d' hmoved => ?_
  split <;> exact hmoved.trans (.same hmoved.ballot rfl rfl rfl (Or.inl rfl) rfl)

/-- Compacting the log. -/
theorem polled_takeSnapshot (h : n.BallotSaved d) (index : Int) (data : Bytes) :
    (n.takeSnapshot index data).Ensures True (Interrupted d) (fun r d' => Polled n d r.1 d') d :=
  Node.takeSnapshot_rule (fun _ => .refl h) (fun _ => .refl h) fun _ _ =>
    ⟨fun _ => ⟨.refl _, .refl h⟩, fun _ => ⟨.refl _, .same h rfl rfl rfl (Or.inl rfl) rfl⟩,
      .same h rfl rfl rfl (Or.inl rfl) rfl⟩

/-- Looking for a snapshot to send. -/
theorem polled_installSnapshotRequestForPeer (h : n.BallotSaved d) (peerID : String) :
    (n.installSnapshotRequestForPeer peerID).Ensures True (Interrupted d) (fun r d' => Polled n d r.1 d') d :=
  Node.installSnapshotRequestForPeer_rule (fun _ _ => .refl _) (fun _ => .refl h) (fun _ _ => .refl h)
    (fun _ _ => .same h rfl rfl rfl (Or.inl rfl) rfl) fun _ _ _ _ _ => .same h rfl rfl rfl (Or.inl rfl) rfl

/-- Building entries to send. -/
theorem polled_appendEntriesRequestForPeer (h : n.BallotSaved d) (peerID : String) :
    (n.appendEntriesRequestForPeer peerID).Ensures True (Interrupted d) (fun r d' => Polled n d r.1 d') d :=
  Node.appendEntriesRequestForPeer_rule (fun _ _ _ => .refl _) (fun _ => .refl h)
    (fun _ _ => .same h rfl rfl rfl (Or.inl rfl) rfl) fun _ _ _ _ => .same h rfl rfl rfl (Or.inl rfl) rfl

/-- Picking an entry. -/
theorem polled_nextToApply (h : n.BallotSaved d) :
    n.nextToApply.Ensures True (Interrupted d) (fun r d' => Polled n d r.1 d') d :=
  Node.nextToApply_rule (fun _ _ _ => .refl _) (.refl h) fun _ _ _ => .same h rfl rfl rfl (Or.inl rfl) rfl

end Sections

/-- A vote that a node has granted to a candidate, or has cast for itself. -/
structure Vote where
  term : Int
  candidate : String
  deriving DecidableEq, Repr

/-- The votes that a step of a server shows: that of a granted request, and the node's own when it starts to ask for
others. -/
def votesShown (input : Input) (after : Server) (effects : Effects) : List Vote :=
  match input, effects.reply, after.main with
  | .receive (.vote req), some (.vote resp), _ =>
    if resp.voteGranted = true then [{ term := resp.term, candidate := req.candidateID }] else []
  | .startElection, _, .opening req => [{ term := req.term, candidate := req.candidateID }]
  | _, _, _ => []

/-- The candidate that an input asks for a vote for. -/
def Input.candidate : Input → Option String
  | receive (.vote req) => some req.candidateID
  | _ => none

/-- The node has a name, and so has whoever asks for its vote. -/
def Server.Named (sv : Server) (input : Input) : Prop :=
  sv.node.id ≠ "" ∧ input.candidate ≠ some ""

instance (sv : Server) (input : Input) : Decidable (sv.Named input) :=
  inferInstanceAs (Decidable (_ ∧ _))

/-- A step of a server with the votes that it shows. -/
def Server.driveVoting (sv : Server) (drive : Drive) : Option (Server × List Vote) :=
  (sv.step drive.fresh drive.fates drive.input).map fun (after, effects) =>
    (after, votesShown drive.input after effects)

/-- The memory of a server agrees with its disk as far as it must, and a degraded candidate is out of its loop. -/
structure Server.Reliable (sv : Server) : Prop where
  ballot : sv.node.BallotSaved sv.disk
  sober : sv.node.role = .candidate → sv.node.degraded = true → sv.main = .idle ∨ sv.main = .stopped

/-- The disk shows a vote, or a later term. -/
def Server.Remembers (sv : Server) (vote : Vote) : Prop :=
  vote.candidate ≠ "" ∧ (vote.term < sv.disk.hard.currentTerm ∨
    (sv.disk.hard.currentTerm = vote.term ∧ sv.disk.hard.votedFor = vote.candidate))

/-- What a step must come to. -/
structure Server.Keeps (sv : Server) (input : Input) (result : Server × Effects) : Prop where
  reliable : result.1.Reliable
  stored : sv.disk.hard.Precedes result.1.disk.hard
  shown : ∀ vote ∈ votesShown input result.1 result.2, result.1.disk.hard.currentTerm = vote.term ∧
    result.1.disk.hard.votedFor = vote.candidate ∧ (sv.Named input → vote.candidate ≠ "")

namespace Server

variable {sv : Server} {fresh : ℕ} {fates : List Fate} {input : Input} {result : Server × Effects}

/-- A new process remembers its disk. -/
theorem Reliable.boot (id : String) (peers : List String) (disk : PersistentState) :
    (Server.boot id peers disk).Reliable where
  ballot := ⟨Int.le_of_eq (newNode_currentTerm id peers disk).symm,
    fun _ => ⟨newNode_currentTerm id peers disk, newNode_votedFor id peers disk⟩⟩
  sober _ _ := Or.inl rfl

/-- Without an answer, and outside of a campaign, no vote is shown. -/
theorem votesShown_eq_nil {after : Server} {effects : Effects} (hreply : effects.reply = none)
    (hmain : after.main = .idle) : votesShown input after effects = [] := by
  unfold votesShown
  rw [hreply, hmain]
  cases input with
  | receive req => cases req <;> rfl
  | _ => rfl

/-- A process that is started again with at most a later ballot on its disk. -/
theorem Keeps.reboot {disk : PersistentState} (h : sv.disk.hard.Precedes disk.hard) {effects : Effects}
    (hreply : effects.reply = none) : sv.Keeps input (sv.reboot disk, effects) where
  reliable := .boot ..
  stored := h
  shown vote hvote := by
    rw [votesShown_eq_nil hreply rfl] at hvote
    cases hvote

/-- A performed section. -/
theorem Keeps.perform {A : Type} {p : Section A} {next : A → PersistentState → Server × Effects}
    {Q : A → PersistentState → Prop} (hp : p.Ensures True (Interrupted sv.disk) Q sv.disk)
    (hnext : ∀ r disk, Q r disk → sv.Keeps input (next r disk)) : sv.Keeps input (sv.perform fates p next) :=
  Server.perform_rule hp (Or.inl trivial) hnext fun _ _ hstored => .reboot hstored rfl

/-- A step that shows no vote. -/
theorem Keeps.silent (hpolled : Polled sv.node sv.disk result.1.node result.1.disk)
    (hmain : sv.node.role = .candidate → sv.node.degraded = true → result.1.main = .idle ∨ result.1.main = .stopped)
    (hshown : votesShown input result.1 result.2 = []) : sv.Keeps input result where
  reliable := by
    refine ⟨hpolled.ballot, fun hcandidate hdegraded => ?_⟩
    obtain ⟨hcandidate', hdegraded'⟩ := hpolled.sober hcandidate hdegraded
    exact hmain hcandidate' hdegraded'
  stored := hpolled.stored
  shown vote hvote := by
    rw [hshown] at hvote
    cases hvote

/-- A candidate in one of the loops is not degraded. -/
theorem Reliable.healthy (h : sv.Reliable) (hidle : sv.main ≠ .idle) (hstopped : sv.main ≠ .stopped)
    (hcandidate : sv.node.role = .candidate) : sv.node.degraded = false := by
  by_contra hdegraded
  exact (h.sober hcandidate (Bool.not_eq_false _ ▸ hdegraded)).elim hidle hstopped

/-- Whatever comes of a candidate in one of the loops need not be considered for being degraded. -/
theorem Reliable.busy (h : sv.Reliable) (hidle : sv.main ≠ .idle) (hstopped : sv.main ≠ .stopped) {P : Prop}
    (hcandidate : sv.node.role = .candidate) (hdegraded : sv.node.degraded = true) : P := by
  rw [h.healthy hidle hstopped hcandidate] at hdegraded
  cases hdegraded

/-- Handlers keep the ballot, and tell of no vote that is not on the disk. -/
theorem Reliable.receive (h : sv.Reliable) (req : Request) : sv.Keeps (.receive req) (sv.carryOut fates (sv.planReceive req)) := by
  cases req with
  | vote req =>
    refine Keeps.perform (polled_handleRequestVote h.ballot req) ?_
    rintro ⟨node, _ | resp⟩ disk ⟨hpolled, hstored⟩
    · exact .silent hpolled h.sober rfl
    · refine ⟨⟨hpolled.ballot, fun hcandidate hdegraded => ?_⟩, hpolled.stored, fun vote hvote => ?_⟩
      · obtain ⟨hcandidate', hdegraded'⟩ := hpolled.sober hcandidate hdegraded
        exact h.sober hcandidate' hdegraded'
      · simp only [votesShown, onDisk, NodeProcess.handled] at hvote
        split at hvote
        · rename_i hgranted
          cases List.mem_singleton.mp hvote
          obtain ⟨hterm, hcandidate⟩ := hstored resp rfl hgranted
          exact ⟨hterm, hcandidate, fun hnamed hempty => hnamed.2 (congrArg some hempty)⟩
        · cases hvote
  | append req =>
    refine Keeps.perform (polled_handleAppendEntries h.ballot req) ?_
    rintro ⟨node, _ | resp⟩ disk hpolled <;> exact .silent hpolled h.sober rfl
  | install req =>
    refine Keeps.perform (polled_handleInstallSnapshot h.ballot req) ?_
    rintro ⟨node, _ | resp⟩ disk hpolled <;> exact .silent hpolled h.sober rfl

/-- A node that asks for votes has stored its own. -/
theorem Reliable.startElection (h : sv.Reliable) (hmain : sv.main = .starting) :
    sv.Keeps .startElection (sv.carryOut fates sv.planStartElection) := by
  refine Keeps.perform (polled_startElection h.ballot) ?_
  rintro ⟨node, _ | req⟩ disk ⟨hpolled, hstored⟩
  · exact .silent hpolled (fun _ _ => Or.inl rfl) rfl
  · refine ⟨⟨hpolled.ballot, fun hcandidate hdegraded => ?_⟩, hpolled.stored, fun vote hvote => ?_⟩
    · obtain ⟨hcandidate', hdegraded'⟩ := hpolled.sober hcandidate hdegraded
      exact h.busy (by simp [hmain]) (by simp [hmain]) hcandidate' hdegraded'
    · cases List.mem_singleton.mp hvote
      obtain ⟨hterm, hcandidate, hself⟩ := hstored req rfl
      exact ⟨hterm, hcandidate, fun hnamed => hself ▸ hnamed.1⟩

/-- Every step of a server keeps its ballot, whatever becomes of its storage calls. -/
theorem Reliable.step (h : sv.Reliable) (hmove : sv.Move fresh fates input result) : sv.Keeps input result := by
  have hkept : ∀ {n' : Node}, n'.currentTerm = sv.node.currentTerm → n'.votedFor = sv.node.votedFor →
      n'.role = sv.node.role → n'.degraded = sv.node.degraded → Polled sv.node sv.disk n' sv.disk :=
    fun hterm hvote hrole hdegraded => .same h.ballot hterm hvote rfl (Or.inl hrole) hdegraded
  cases hmove with
  | restart => exact .reboot (.refl _) rfl
  | dispatch =>
    simp only [NodeProcess.dispatch]
    split
    · exact .silent (hkept rfl rfl rfl rfl) (fun _ _ => Or.inr rfl) rfl
    · rename_i hhealthy
      split <;> exact .silent (hkept rfl rfl rfl rfl) (fun _ hdegraded => absurd hdegraded hhealthy) rfl
  | electionReset | callFailed | wakeApply | sendSnapshot | sendEntry =>
    exact .silent (hkept rfl rfl rfl rfl) h.sober rfl
  | electionTimeout =>
    refine ⟨⟨⟨h.ballot.ahead, fun hwhen => ?_⟩, fun _ _ => Or.inl rfl⟩, .refl _, fun vote hvote => by cases hvote⟩
    rcases hwhen with hhealthy | hleads
    · exact h.ballot.saved (Or.inl hhealthy)
    · cases hleads
  | startElection hmain => exact h.startElection hmain
  | openPoll hmain | startRoundNotified hmain | startRound hmain =>
    exact .silent (hkept rfl rfl rfl rfl) (h.busy (by simp [hmain]) (by simp [hmain])) rfl
  | pollTimeout => exact .silent (hkept rfl rfl rfl rfl) (fun _ _ => Or.inl rfl) rfl
  | voteAnswered hmain =>
    have hbusy := h.healthy (by simp [hmain]) (by simp [hmain])
    refine Keeps.perform (polled_handleVoteResponse h.ballot hbusy _ _ _) ?_
    exact fun r disk hpolled => .silent hpolled (h.busy (by simp [hmain]) (by simp [hmain])) rfl
  | visit hmain =>
    refine Keeps.perform (polled_installSnapshotRequestForPeer h.ballot _) ?_
    rintro ⟨node, _ | _ | req⟩ disk hpolled
    all_goals exact .silent hpolled (h.busy (by simp [hmain]) (by simp [hmain])) rfl
  | appendTurn hmain =>
    refine Keeps.perform (polled_appendEntriesRequestForPeer h.ballot _) ?_
    rintro ⟨node, _ | _ | req⟩ disk hpolled
    all_goals exact .silent hpolled (h.busy (by simp [hmain]) (by simp [hmain])) rfl
  | appendAnswered =>
    exact Keeps.perform (polled_handleAppendEntriesResponse h.ballot _ _ _) fun r disk hpolled =>
      .silent hpolled h.sober rfl
  | installAnswered =>
    exact Keeps.perform (polled_handleInstallSnapshotResponse h.ballot _ _ _) fun r disk hpolled =>
      .silent hpolled h.sober rfl
  | @signal send signals =>
    refine .silent (hkept ?_ ?_ ?_ ?_) h.sober rfl
    all_goals
      simp only [NodeProcess.stepSignal]
      split <;> split <;> rfl
  | finish | notify => exact .silent (hkept rfl rfl rfl rfl) h.sober rfl
  | receive req => exact h.receive req
  | startCommand cmd =>
    exact Keeps.perform (polled_startCommand h.ballot cmd) fun r disk hpolled => .silent hpolled h.sober rfl
  | takeSnapshot index data =>
    refine Keeps.perform (polled_takeSnapshot h.ballot index data) ?_
    rintro ⟨node, _ | _⟩ disk hpolled <;> exact .silent hpolled h.sober rfl
  | drain => exact .silent (hkept rfl rfl rfl rfl) h.sober rfl
  | recordSnapshot => exact .silent (hkept rfl rfl rfl rfl) h.sober rfl
  | pickEntry =>
    exact Keeps.perform (polled_nextToApply h.ballot) fun r disk hpolled => .silent hpolled h.sober rfl

/-- What the disk of a server shows stays shown. -/
theorem Remembers.mono {sv' : Server} {vote : Vote} (h : sv.Remembers vote)
    (hstored : sv.disk.hard.Precedes sv'.disk.hard) : sv'.Remembers vote := by
  obtain ⟨hnamed, hlater | ⟨hterm, hvote⟩⟩ := h
  · refine ⟨hnamed, Or.inl ?_⟩
    rcases hstored with hlt | ⟨hsame, _⟩ <;> omega
  · rcases hstored with hlt | ⟨hsame, hnone | hkept⟩
    · exact ⟨hnamed, Or.inl (hterm ▸ hlt)⟩
    · exact absurd (hvote.symm.trans hnone) hnamed
    · exact ⟨hnamed, Or.inr ⟨hsame.trans hterm, hkept.trans hvote⟩⟩

end Server

/-- **Votes are irrevocable.** In every run of a server from any stored state, as long as terms and indices are in
range and candidates have names, whatever requests and responses reach it, whichever storage calls fail and whenever it
crashes: the votes that it has granted to others or cast for itself go to later and later terms, and all of one term go
to one candidate. -/
theorem votes_are_irrevocable {h : History Server Vote} (run : HistoryReachable Server.IsNew
      (fun sv drive => sv.Fits drive ∧ sv.Named drive.input) Server.driveVoting h) :
    h.past.Pairwise fun vote earlier =>
      earlier.term ≤ vote.term ∧ (vote.term = earlier.term → vote.candidate = earlier.candidate) := by
  refine HistoryReachable.pairwise (P := Server.Reliable) (V := Server.Remembers) ?_ ?_ run
  · rintro sv ⟨id, peers, disk, rfl⟩
    exact .boot id peers disk
  · rintro sv drive sv' seen hreliable ⟨_, hnamed⟩ hobserved
    obtain ⟨⟨after, effects⟩, hstep, hshown⟩ := Option.map_eq_some_iff.mp hobserved
    cases hshown
    obtain ⟨hreliable', hstored, hvotes⟩ := hreliable.step (Server.Move.of_step hstep)
    refine ⟨hreliable', fun vote hvote => hvote.mono hstored, fun vote hvote => ?_, ?_, fun vote hvote earlier hearlier => ?_⟩
    · obtain ⟨hterm, hcandidate, hnonempty⟩ := hvotes vote hvote
      exact ⟨hnonempty hnamed, Or.inr ⟨hterm, hcandidate⟩⟩
    · -- one step shows at most one vote
      unfold votesShown
      split
      · split <;> simp
      · exact List.pairwise_singleton _ _
      · exact List.Pairwise.nil
    · obtain ⟨hterm, hcandidate, _⟩ := hvotes vote hvote
      obtain ⟨_, hlater | ⟨hterm', hcandidate'⟩⟩ := hearlier.mono hstored
      · exact ⟨by omega, fun hsame => by omega⟩
      · exact ⟨by omega, fun _ => hcandidate.symm.trans hcandidate'⟩

/-- Candidate `b` asks for a vote in term 1, and the node crashes when it saves it. It grants `c` its vote, refuses
`b`, is restarted, refuses `b` again and stands for election itself. -/
def crashedVoter : List Drive :=
  let ask (candidate : String) : Input :=
    .receive (.vote { term := 1, candidateID := candidate, lastLogIndex := 0, lastLogTerm := 0 })
  [{ fresh := 0, fates := [.succeeds, .crashes], input := ask "b" }, .of (ask "c"), .of (ask "b"), .of .restart,
    .of (ask "b"), .of .dispatch, .of .electionTimeout, .of .dispatch, .of .startElection]

/-- A vote survives a restart, and the next one goes to a later term. -/
theorem votes_are_irrevocable_across_restarts :
    ∃ h : History Server Vote, HistoryReachable Server.IsNew
        (fun sv drive => sv.Fits drive ∧ sv.Named drive.input) Server.driveVoting h ∧
      h.past = [{ term := 2, candidate := "a" }, { term := 1, candidate := "c" }] ∧
      h.past.Pairwise fun vote earlier =>
        earlier.term ≤ vote.term ∧ (vote.term = earlier.term → vote.candidate = earlier.candidate) := by
  have hrun : (execute (fun h drive => h.state.Fits drive ∧ h.state.Named drive.input) (History.step Server.driveVoting)
      { state := Server.boot "a" ["a", "b", "c"] .empty, past := [] } crashedVoter).map History.past =
        some [{ term := 2, candidate := "a" }, { term := 1, candidate := "c" }] := by
    decide +kernel
  have hnew : Server.IsNew (Server.boot "a" ["a", "b", "c"] .empty) := ⟨_, _, _, rfl⟩
  obtain ⟨h, hh, hpast⟩ : ∃ h, HistoryReachable Server.IsNew
      (fun sv drive => sv.Fits drive ∧ sv.Named drive.input) Server.driveVoting h ∧ _ = _ :=
    exists_history_of_execute hnew hrun
  exact ⟨h, hh, hpast, votes_are_irrevocable hh⟩

end ConsensusLab.Raft
