import ConsensusLab.Raft.HandlerRules
import ConsensusLab.Raft.ReplicationRules

/-!
# What a section does to a node's standing

The standing of a node is its role, its commit index, its configuration and whether it
is degraded. Whatever becomes of its storage calls, a section leaves the standing alone,
makes a healthy node a follower, retires it to a follower, or commits as leader; only
reading a vote can make a leader.
-/

namespace ConsensusLab.Raft

open Foundation

/-- What a section can do to a node's standing, other than win an election. -/
inductive StandingChange (n n' : Node) : Prop
  /-- Nothing. -/
  | kept (hrole : n'.role = n.role) (hcommit : n'.commitIndex = n.commitIndex)
      (hconfig : n'.config = n.config) (hdegraded : n'.degraded = n.degraded)
  /-- A healthy node follows whoever sent a request. -/
  | followed (hhealthy : n.degraded = false) (hrole : n'.role = .follower) (hdegraded : n'.degraded = false)
  /-- The node gives up its candidacy or its office, and may be degraded by that. -/
  | retired (hrole : n'.role = .follower) (hcommit : n'.commitIndex = n.commitIndex)
      (hconfig : n'.config = n.config) (hdegraded : n.degraded = true → n'.degraded = true)
  /-- A leader commits what a quorum matches, and may be degraded by that. -/
  | committed (hleads : n.role = .leader) (hrole : n'.role = .leader) (hconfig : n'.config = n.config)
      (hquorum : n'.quorumSize ≤ 1 + (n'.peers.filter fun p => n'.matchIndex p ≥ n'.commitIndex).length)
      (hdegraded : n.degraded = true → n'.degraded = true)

/-- The candidate wins its election with the given count. -/
structure Node.WinsElection (n n' : Node) (votes majority : ℕ) (resp : RequestVoteResponse) : Prop where
  candidate : n.role = .candidate
  term : resp.term ≤ n.currentTerm
  majority : majority ≤ if resp.voteGranted then votes + 1 else votes
  node : n' = n.becomeLeader

variable {n n' n'' : Node} {d : PersistentState}

/-- Changes of the standing are the same for nodes of equal standing. -/
theorem StandingChange.keep (h : StandingChange n n') (hrole : n''.role = n'.role)
    (hcommit : n''.commitIndex = n'.commitIndex) (hconfig : n''.config = n'.config)
    (hdegraded : n''.degraded = n'.degraded) (hpeers : n''.peers = n'.peers)
    (hmatch : n''.matchIndex = n'.matchIndex) : StandingChange n n'' := by
  cases h with
  | kept h₁ h₂ h₃ h₄ =>
    exact .kept (hrole.trans h₁) (hcommit.trans h₂) (hconfig.trans h₃) (hdegraded.trans h₄)
  | followed h₁ h₂ h₃ => exact .followed h₁ (hrole.trans h₂) (hdegraded.trans h₃)
  | retired h₁ h₂ h₃ h₄ =>
    exact .retired (hrole.trans h₁) (hcommit.trans h₂) (hconfig.trans h₃) fun hd => hdegraded.trans (h₄ hd)
  | committed h₁ h₂ h₃ h₄ h₅ =>
    refine .committed h₁ (hrole.trans h₂) (hconfig.trans h₃) ?_ fun hd => hdegraded.trans (h₅ hd)
    rw [Node.quorumSize, hconfig, hpeers, hmatch, hcommit]
    exact h₄

/-- A change of the standing that leaves the node as healthy as it was. -/
structure HealthyChange (n n' : Node) : Prop where
  change : StandingChange n n'
  degraded : n'.degraded = n.degraded

/-- Leaving the standing alone. -/
theorem HealthyChange.kept (hrole : n'.role = n.role) (hcommit : n'.commitIndex = n.commitIndex)
    (hconfig : n'.config = n.config) (hdegraded : n'.degraded = n.degraded) : HealthyChange n n' :=
  ⟨.kept hrole hcommit hconfig hdegraded, hdegraded⟩

/-- Following. -/
theorem HealthyChange.followed (hhealthy : n.degraded = false) (hrole : n'.role = .follower)
    (hdegraded : n'.degraded = false) : HealthyChange n n' :=
  ⟨.followed hhealthy hrole hdegraded, hdegraded.trans hhealthy.symm⟩

section Sections

/-- Handling a vote request. -/
theorem standing_handleRequestVote (req : RequestVoteRequest) :
    (n.handleRequestVote req).Ensures True (fun _ => True) (fun r _ => HealthyChange n r.1) d := by
  have hmoved : n.degraded = false → ∀ {d₁}, ({ n.adoptTerm req.term with role := .follower }.castVote req).Ensures
      True (fun _ => True) (fun r _ => HealthyChange n r.1) d₁ := by
    intro hhealthy d₁
    exact Node.castVote_rule (.followed hhealthy rfl hhealthy) fun _ _ =>
      ⟨fun _ => ⟨trivial, .followed hhealthy rfl hhealthy⟩, .followed hhealthy rfl hhealthy⟩
  refine Node.handleRequestVote_rule (fun _ => .kept rfl rfl rfl rfl) (fun _ _ => .kept rfl rfl rfl rfl)
    (fun hhealthy _ => ⟨fun _ => ⟨trivial, .kept rfl rfl rfl rfl⟩, hmoved hhealthy⟩) fun _ _ => ?_
  exact Node.castVote_rule (.kept rfl rfl rfl rfl) fun _ _ =>
    ⟨fun _ => ⟨trivial, .kept rfl rfl rfl rfl⟩, .kept rfl rfl rfl rfl⟩

/-- Handling entries. -/
theorem standing_handleAppendEntries (req : AppendEntriesRequest) :
    (n.handleAppendEntries req).Ensures True (fun _ => True) (fun r _ => HealthyChange n r.1) d := by
  -- below the term comparison the node is a follower, and stays healthy
  have hmerge : ∀ {n₁ : Node} {d₁}, n₁.role = .follower → n₁.degraded = false →
      (n₁.mergeEntries (req.prevLogIndex + 1) req.entries).Ensures True (fun _ => True)
        (fun r _ => r.1.role = .follower ∧ r.1.degraded = false) d₁ := fun hr hd =>
    Node.mergeEntries_rule (fun _ => ⟨hr, hd⟩) (fun _ _ _ _ _ _ _ => ⟨fun _ => ⟨trivial, hr, hd⟩, hr, hd⟩)
      fun _ _ _ _ _ _ _ _ => ⟨fun _ => ⟨trivial, hr, hd⟩, fun _ => ⟨trivial, hr, hd⟩, hr, hd⟩
  have hcommit : ∀ {n₁ : Node} {d₁}, n₁.role = .follower → n₁.degraded = false →
      (n₁.followCommit req.leaderCommit).Ensures True (fun _ => True)
        (fun r _ => r.1.role = .follower ∧ r.1.degraded = false) d₁ := fun hr hd =>
    Node.followCommit_rule (fun _ => ⟨hr, hd⟩) fun _ => ⟨fun _ => ⟨trivial, hr, hd⟩, hr, hd⟩
  have happend : n.degraded = false → ∀ {n₁ : Node} {d₁}, n₁.degraded = false →
      (n₁.appendFromLeader req).Ensures True (fun _ => True) (fun r _ => HealthyChange n r.1) d₁ := by
    intro hhealthy n₁ d₁ hd
    have hrole : n₁.asFollower.role = .follower := rfl
    refine Node.appendFromLeader_rule (fun _ _ => .followed hhealthy rfl hd) fun _ =>
      (hmerge hrole hd).mono (fun _ h => h) ?_
    intro merged d₂ hm
    refine ⟨fun _ _ => .followed hhealthy hm.1 hm.2, fun _ => (hcommit hm.1 hm.2).mono (fun _ h => h) ?_⟩
    intro final d₃ hf
    exact ⟨fun _ _ => .followed hhealthy hf.1 hf.2, fun _ => .followed hhealthy hf.1 hf.2⟩
  exact Node.handleAppendEntries_rule (fun _ => .kept rfl rfl rfl rfl) (fun _ _ => .kept rfl rfl rfl rfl)
    (fun hhealthy _ => ⟨fun _ => ⟨trivial, .kept rfl rfl rfl rfl⟩, happend hhealthy hhealthy⟩)
    fun hhealthy _ => happend hhealthy hhealthy

/-- Handling a snapshot. -/
theorem standing_handleInstallSnapshot (req : InstallSnapshotRequest) :
    (n.handleInstallSnapshot req).Ensures True (fun _ => True) (fun r _ => HealthyChange n r.1) d := by
  have hinstall : n.degraded = false → ∀ {n₁ : Node} {d₁}, n₁.degraded = false →
      (n₁.installFromLeader req).Ensures True (fun _ => True) (fun r _ => HealthyChange n r.1) d₁ := by
    intro hhealthy n₁ d₁ hd
    refine Node.installFromLeader_rule (fun _ => .followed hhealthy rfl hd) fun _ =>
      ⟨fun _ => ⟨trivial, .followed hhealthy rfl hd⟩, ?_⟩
    have hinstalled : HealthyChange n (n₁.asFollower.adoptSnapshot req.snapshot).notifyApply :=
      .followed hhealthy rfl hd
    exact Node.applySnapshot_rule ⟨fun _ => ⟨trivial, hinstalled⟩, hinstalled⟩ fun _ =>
      ⟨fun _ => ⟨trivial, hinstalled⟩, hinstalled⟩
  exact Node.handleInstallSnapshot_rule (fun _ => .kept rfl rfl rfl rfl) (fun _ _ => .kept rfl rfl rfl rfl)
    (fun hhealthy _ => ⟨fun _ => ⟨trivial, .kept rfl rfl rfl rfl⟩, hinstall hhealthy hhealthy⟩)
    fun hhealthy _ => hinstall hhealthy hhealthy

/-- Starting an election: only a failed save changes anything. -/
theorem standing_startElection :
    n.startElection.Ensures True (fun _ => True) (fun r _ => StandingChange n r.1 ∧
      (∀ req, r.2 = some req → r.1.degraded = n.degraded) ∧ (r.2 = none → r.1.role = .follower)) d :=
  Node.startElection_rule
    (fun _ => ⟨trivial, .retired rfl rfl rfl fun _ => rfl, nofun, fun _ => rfl⟩)
    ⟨.kept rfl rfl rfl rfl, fun _ _ => rfl, nofun⟩

/-- Stepping down. -/
theorem standing_stepDown (term : Int) :
    (n.stepDown term).Ensures True (fun _ => True)
      (fun n' _ => StandingChange n n' ∧ n'.role = .follower) d :=
  Node.stepDown_rule (fun _ => ⟨trivial, .retired rfl rfl rfl fun _ => rfl, rfl⟩)
    ⟨.retired rfl rfl rfl fun hd => hd, rfl⟩

/-- Reading a vote. -/
theorem standing_handleVoteResponse (votes majority : ℕ) (resp : RequestVoteResponse) :
    (n.handleVoteResponse votes majority resp).Ensures True (fun _ => True) (fun r _ =>
      (StandingChange n r.1 ∧ (r.1.role = .follower ∨ r.1 = n) ∧ ∀ count, r.2 = some count → r.1 = n) ∨
        (n.WinsElection r.1 votes majority resp ∧ r.2 = none)) d :=
  Node.handleVoteResponse_rule
    (fun _ => (standing_stepDown _).mono (fun _ h => h) fun _ _ hm => Or.inl ⟨hm.1, Or.inl hm.2, nofun⟩)
    (fun _ _ => Or.inl ⟨.kept rfl rfl rfl rfl, Or.inr rfl, nofun⟩)
    (fun hterm hrole hmajority => Or.inr ⟨⟨hrole, hterm, hmajority, rfl⟩, rfl⟩)
    fun _ _ => Or.inl ⟨.kept rfl rfl rfl rfl, Or.inr rfl, fun _ _ => rfl⟩

/-- Advancing the commit index of a leader. -/
theorem standing_advanceCommitIndex (hrole : n.role = .leader) :
    n.advanceCommitIndex.Ensures True (fun _ => True) (fun r _ => StandingChange n r.1) d :=
  Node.advanceCommitIndex_rule (fun _ => trivial) (.kept rfl rfl rfl rfl) fun _ hi =>
    ⟨fun _ => .committed hrole hrole rfl hi.quorum fun _ => rfl,
      .committed hrole hrole rfl hi.quorum fun hd => hd⟩

/-- Advancing the commit index after progress that leaves the standing alone. -/
theorem standing_advance (hrole : n.role = .leader) (hsame : n'.role = n.role)
    (hcommit : n'.commitIndex = n.commitIndex) (hconfig : n'.config = n.config)
    (hdegraded : n'.degraded = n.degraded) :
    n'.advanceCommitIndex.Ensures True (fun _ => True) (fun r _ => StandingChange n r.1) d := by
  refine (standing_advanceCommitIndex (hsame.trans hrole)).mono (fun _ h => h) ?_
  intro r _ h
  cases h with
  | kept h₁ h₂ h₃ h₄ =>
    exact .kept (h₁.trans hsame) (h₂.trans hcommit) (h₃.trans hconfig) (h₄.trans hdegraded)
  | followed h₁ h₂ h₃ => exact .followed (hdegraded.symm.trans h₁) h₂ h₃
  | retired h₁ h₂ h₃ h₄ =>
    exact .retired h₁ (h₂.trans hcommit) (h₃.trans hconfig) fun hd => h₄ (hdegraded.trans hd)
  | committed h₁ h₂ h₃ h₄ h₅ =>
    exact .committed hrole h₂ (h₃.trans hconfig) h₄ fun hd => h₅ (hdegraded.trans hd)

/-- Looking for a snapshot to send; only a leader sends one. -/
theorem standing_installSnapshotRequestForPeer (peerID : String) :
    (n.installSnapshotRequestForPeer peerID).Ensures True (fun _ => True)
      (fun r _ => HealthyChange n r.1 ∧ (n.role ≠ .leader → r.2 = none)) d :=
  Node.installSnapshotRequestForPeer_rule (fun _ _ => trivial) (fun _ => ⟨.kept rfl rfl rfl rfl, fun _ => rfl⟩)
    (fun hrole _ => ⟨.kept rfl rfl rfl rfl, fun hnot => absurd hrole hnot⟩)
    (fun hrole _ => ⟨.kept rfl rfl rfl rfl, fun hnot => absurd hrole hnot⟩)
    fun hrole _ _ _ _ => ⟨.kept rfl rfl rfl rfl, fun hnot => absurd hrole hnot⟩

/-- Building entries to send; only a leader builds any. -/
theorem standing_appendEntriesRequestForPeer (peerID : String) :
    (n.appendEntriesRequestForPeer peerID).Ensures True (fun _ => True)
      (fun r _ => HealthyChange n r.1 ∧ (n.role ≠ .leader → r.2 = none)) d :=
  Node.appendEntriesRequestForPeer_rule (fun _ _ _ => trivial) (fun _ => ⟨.kept rfl rfl rfl rfl, fun _ => rfl⟩)
    (fun hrole _ => ⟨.kept rfl rfl rfl rfl, fun hnot => absurd hrole hnot⟩)
    fun hrole _ _ _ => ⟨.kept rfl rfl rfl rfl, fun hnot => absurd hrole hnot⟩

/-- Processing an AppendEntries response; one of a later term retires the node. -/
theorem standing_handleAppendEntriesResponse (peerID : String) (req : AppendEntriesRequest)
    (resp : AppendEntriesResponse) :
    (n.handleAppendEntriesResponse peerID req resp).Ensures True (fun _ => True)
      (fun r _ => StandingChange n r.1 ∧ (n.currentTerm < resp.term → r.1.role = .follower)) d := by
  refine Node.handleAppendEntriesResponse_rule
    (fun _ => (standing_stepDown _).mono (fun _ h => h) fun _ _ hm => ⟨hm.1, fun _ => hm.2⟩)
    (fun hle _ => ⟨.kept rfl rfl rfl rfl, fun hlt => absurd hlt (Int.not_lt.mpr hle)⟩)
    (fun hle _ _ _ => ⟨.kept rfl rfl rfl rfl, fun hlt => absurd hlt (Int.not_lt.mpr hle)⟩) ?_
  intro hle hrole _ _
  have hadvance : (n.recordProgress peerID (req.prevLogIndex + req.entries.length)).advanceCommitIndex.Ensures
      True (fun _ => True) (fun r _ => StandingChange n r.1) d := standing_advance hrole rfl rfl rfl rfl
  exact hadvance.mono (fun _ h => h) fun _ _ h => ⟨h, fun hlt => absurd hlt (Int.not_lt.mpr hle)⟩

/-- Processing an InstallSnapshot response; it commits nothing. -/
theorem standing_handleInstallSnapshotResponse (peerID : String) (req : InstallSnapshotRequest)
    (resp : InstallSnapshotResponse) :
    (n.handleInstallSnapshotResponse peerID req resp).Ensures True (fun _ => True)
      (fun n' _ => StandingChange n n' ∧ (n'.role = .follower ∨ n'.degraded = n.degraded)) d :=
  Node.handleInstallSnapshotResponse_rule
    (fun _ => (standing_stepDown _).mono (fun _ h => h) fun _ _ hm => ⟨hm.1, Or.inl hm.2⟩)
    (fun _ _ => ⟨.kept rfl rfl rfl rfl, Or.inr rfl⟩) fun _ _ _ => ⟨.kept rfl rfl rfl rfl, Or.inr rfl⟩

/-- Starting a command; a degraded node accepts none. -/
theorem standing_startCommand (cmd : Bytes) :
    (n.startCommand cmd).Ensures True (fun _ => True)
      (fun r _ => StandingChange n r.1 ∧ (n.degraded = true → r.2 = none)) d := by
  refine Node.startCommand_rule (fun _ => ⟨.kept rfl rfl rfl rfl, fun _ => rfl⟩)
    (fun _ _ _ => ⟨trivial, .kept rfl rfl rfl rfl, fun _ => rfl⟩) ?_
  intro hhealthy hrole
  have hadvance : (n.appended cmd).advanceCommitIndex.Ensures True (fun _ => True)
      (fun r _ => StandingChange n r.1) { d with log := d.log ++ [n.newEntry cmd] } :=
    standing_advance hrole rfl rfl rfl rfl
  refine hadvance.mono (fun _ h => h) ?_
  intro moved d' hm
  refine ⟨?_, fun hd => ?_⟩
  · change StandingChange n (if moved.2 then moved.1.notifyApply else moved.1).signalReplicate
    split <;> exact hm.keep rfl rfl rfl rfl rfl rfl
  · rw [hhealthy] at hd
    cases hd

/-- Compacting the log. -/
theorem standing_takeSnapshot (index : Int) (data : Bytes) :
    (n.takeSnapshot index data).Ensures True (fun _ => True) (fun r _ => HealthyChange n r.1) d :=
  Node.takeSnapshot_rule (fun _ => .kept rfl rfl rfl rfl) (fun _ => .kept rfl rfl rfl rfl) fun _ _ =>
    ⟨fun _ => ⟨trivial, .kept rfl rfl rfl rfl⟩, fun _ => ⟨trivial, .kept rfl rfl rfl rfl⟩,
      .kept rfl rfl rfl rfl⟩

/-- Picking an entry. -/
theorem standing_nextToApply :
    n.nextToApply.Ensures True (fun _ => True) (fun r _ => HealthyChange n r.1) d :=
  Node.nextToApply_rule (fun _ _ _ => trivial) (.kept rfl rfl rfl rfl) fun _ _ _ => .kept rfl rfl rfl rfl

end Sections

end ConsensusLab.Raft
