import ConsensusLab.Raft.DurableVotes

/-!
# A leader only appends

As long as a server leads a term, and this is at most one stretch of its run, it neither
removes nor changes an entry of its log except by compacting it, and never takes back its
commit index. Every handler that could cut the log makes the node a follower first, and a
node that has led a term can lead again only after it has moved to a later one, even if
it has crashed in between.
-/

namespace ConsensusLab.Raft

open Foundation StorageProgram

/-- A log that is later another one without having lost an entry, except to a snapshot. -/
structure Node.GrowsInto (n n' : Node) : Prop where
  start : n.snapshotIndex ≤ n'.snapshotIndex
  last : n.lastLogIndex ≤ n'.lastLogIndex
  commit : n.commitIndex ≤ n'.commitIndex
  entries : ∀ i e, n.entryAt i = some e → n'.snapshotIndex < i → n'.entryAt i = some e

/-- What a section does to the office of a node: who leads afterwards has led before, and who is a candidate
afterwards was one before, in the same term. -/
structure Serves (n n' : Node) : Prop where
  leader : n'.role = .leader → n.role = .leader ∧ n'.currentTerm = n.currentTerm ∧ n.GrowsInto n'
  candidate : n'.role = .candidate → n.role = .candidate ∧ n'.currentTerm = n.currentTerm

variable {n n' n₁ : Node} {d : PersistentState}

namespace Node.GrowsInto

/-- The log stays as it is. -/
theorem same (hindex : n'.snapshotIndex = n.snapshotIndex) (hlog : n'.log = n.log)
    (hcommit : n.commitIndex ≤ n'.commitIndex) : n.GrowsInto n' where
  start := Int.le_of_eq hindex.symm
  last := Int.le_of_eq (lastLogIndex_congr hindex hlog).symm
  commit := hcommit
  entries i _ he _ := (entryAt_congr hindex hlog i).trans he

/-- Nothing happens. -/
theorem refl (n : Node) : n.GrowsInto n := same rfl rfl (Int.le_refl _)

/-- One growth after another. -/
theorem trans (h : n.GrowsInto n₁) (h' : n₁.GrowsInto n') : n.GrowsInto n' where
  start := Int.le_trans h.start h'.start
  last := Int.le_trans h.last h'.last
  commit := Int.le_trans h.commit h'.commit
  entries i e he hi := h'.entries i e (h.entries i e he (Int.lt_of_le_of_lt h'.start hi)) hi

/-- A command is appended. -/
theorem appended (n : Node) (cmd : Bytes) : n.GrowsInto (n.appended cmd) where
  start := Int.le_refl _
  last := by
    simp only [lastLogIndex, Node.appended, List.length_append]
    omega
  commit := Int.le_refl _
  entries i e he _ := entryAt_extended he

/-- The log is compacted up to one of its entries. -/
theorem compacted {index : Int} {entry : LogEntry} (hentry : n.entryAt index = some entry) (data : Bytes) :
    n.GrowsInto (n.compactTo (n.snapshotAt index entry data)) := by
  obtain ⟨hlow, hhigh, _⟩ := entryAt_eq_some hentry
  refine ⟨Int.le_of_lt hlow, ?_, Int.le_refl _, fun i e he hi => ?_⟩
  · simp only [lastLogIndex, compactTo, snapshotAt, List.length_drop] at hhigh ⊢
    omega
  · exact (entryAt_drop (Int.le_of_lt hlow) rfl).mpr ⟨he, hi⟩

end Node.GrowsInto

namespace Serves

/-- The office stays as it is and the log grows. -/
theorem same (hrole : n'.role = n.role) (hterm : n'.currentTerm = n.currentTerm) (hgrows : n.GrowsInto n') :
    Serves n n' where
  leader hleads := ⟨hrole ▸ hleads, hterm, hgrows⟩
  candidate hcandidate := ⟨hrole ▸ hcandidate, hterm⟩

/-- Nothing happens. -/
theorem refl (n : Node) : Serves n n := same rfl rfl (.refl n)

/-- A follower has no office. -/
theorem follower (hrole : n'.role = .follower) : Serves n n' where
  leader hleads := by cases hrole.symm.trans hleads
  candidate hcandidate := by cases hrole.symm.trans hcandidate

/-- One change after another. -/
theorem trans (h : Serves n n₁) (h' : Serves n₁ n') : Serves n n' where
  leader hleads := by
    obtain ⟨hleads₁, hterm', hgrows'⟩ := h'.leader hleads
    obtain ⟨hleads₀, hterm, hgrows⟩ := h.leader hleads₁
    exact ⟨hleads₀, hterm'.trans hterm, hgrows.trans hgrows'⟩
  candidate hcandidate := by
    obtain ⟨hcandidate₁, hterm'⟩ := h'.candidate hcandidate
    obtain ⟨hcandidate₀, hterm⟩ := h.candidate hcandidate₁
    exact ⟨hcandidate₀, hterm'.trans hterm⟩

end Serves

section Sections

/-- Deciding on a vote. -/
theorem serves_castVote (h : Serves n n₁) (req : RequestVoteRequest) :
    (n₁.castVote req).Ensures True (fun _ => True) (fun r _ => Serves n r.1) d :=
  Node.castVote_rule h fun _ _ =>
    ⟨fun _ => ⟨trivial, h⟩, h.trans (.same rfl rfl (.same rfl rfl (Int.le_refl _)))⟩

/-- Handling a vote request. -/
theorem serves_handleRequestVote (n : Node) (req : RequestVoteRequest) :
    (n.handleRequestVote req).Ensures True (fun _ => True) (fun r _ => Serves n r.1) d :=
  Node.handleRequestVote_rule (fun _ => .refl n) (fun _ _ => .refl n)
    (fun _ _ => ⟨fun _ => ⟨trivial, .refl n⟩, serves_castVote (.follower rfl) req⟩)
    fun _ _ => serves_castVote (.refl n) req

/-- Whoever takes entries in the current term is a follower. -/
theorem follows_appendFromLeader (n : Node) (req : AppendEntriesRequest) :
    (n.appendFromLeader req).Ensures True (fun _ => True) (fun r _ => r.1.role = .follower) d := by
  have hmerge : (n.asFollower.mergeEntries (req.prevLogIndex + 1) req.entries).Ensures True (fun _ => True)
      (fun r _ => r.1.role = .follower) d :=
    Node.mergeEntries_rule (fun _ => rfl) (fun _ _ _ _ _ _ _ => ⟨fun _ => ⟨trivial, rfl⟩, rfl⟩)
      fun _ _ _ _ _ _ _ _ => ⟨fun _ => ⟨trivial, rfl⟩, fun _ => ⟨trivial, rfl⟩, rfl⟩
  refine Node.appendFromLeader_rule (fun _ _ => rfl) fun _ => hmerge.mono (fun _ h => h) fun merged d' hrole => ?_
  exact ⟨fun _ _ => hrole, fun _ => Node.followCommit_rule (fun _ => ⟨fun _ _ => hrole, fun _ => hrole⟩) fun _ =>
    ⟨fun _ => ⟨trivial, fun _ _ => hrole, fun _ => hrole⟩, fun _ _ => hrole, fun _ => hrole⟩⟩

/-- Handling entries. -/
theorem serves_handleAppendEntries (n : Node) (req : AppendEntriesRequest) :
    (n.handleAppendEntries req).Ensures True (fun _ => True) (fun r _ => Serves n r.1) d := by
  have happend : ∀ (n₁ : Node) (d₁ : PersistentState), (n₁.appendFromLeader req).Ensures True (fun _ => True)
      (fun r _ => Serves n r.1) d₁ :=
    fun n₁ _ => (follows_appendFromLeader n₁ req).mono (fun _ h => h) fun _ _ hrole => .follower hrole
  exact Node.handleAppendEntries_rule (fun _ => .refl n) (fun _ _ => .refl n)
    (fun _ _ => ⟨fun _ => ⟨trivial, .refl n⟩, happend _ _⟩) fun _ _ => happend _ _

/-- Handling a snapshot. -/
theorem serves_handleInstallSnapshot (n : Node) (req : InstallSnapshotRequest) :
    (n.handleInstallSnapshot req).Ensures True (fun _ => True) (fun r _ => Serves n r.1) d := by
  have hinstall : ∀ (n₁ : Node) (d₁ : PersistentState), (n₁.installFromLeader req).Ensures True (fun _ => True)
      (fun r _ => Serves n r.1) d₁ := by
    intro n₁ d₁
    refine Node.installFromLeader_rule (fun _ => .follower rfl) fun _ => ⟨fun _ => ⟨trivial, .follower rfl⟩, ?_⟩
    exact Node.applySnapshot_rule ⟨fun _ => ⟨trivial, .follower rfl⟩, .follower rfl⟩
      fun _ => ⟨fun _ => ⟨trivial, .follower rfl⟩, .follower rfl⟩
  exact Node.handleInstallSnapshot_rule (fun _ => .refl n) (fun _ _ => .refl n)
    (fun _ _ => ⟨fun _ => ⟨trivial, .refl n⟩, hinstall _ _⟩) fun _ _ => hinstall _ _

/-- Stepping down. -/
theorem serves_stepDown (n : Node) (term : Int) :
    (n.stepDown term).Ensures True (fun _ => True) (fun n' _ => Serves n n') d :=
  Node.stepDown_rule (fun _ => ⟨trivial, .follower rfl⟩) (.follower rfl)

/-- Advancing the commit index. -/
theorem serves_advanceCommitIndex (h : Serves n n₁) :
    n₁.advanceCommitIndex.Ensures True (fun _ => True) (fun r _ => Serves n r.1) d := by
  refine Node.advanceCommitIndex_rule (fun _ => trivial) h fun i hi => ⟨fun _ => ?_, ?_⟩
  · -- a leader that cannot save its commit index keeps its office
    exact h.trans (.same rfl rfl (.same rfl rfl (Int.le_of_lt hi.fresh)))
  · exact h.trans (.same rfl rfl (.same rfl rfl (Int.le_of_lt hi.fresh)))

/-- Processing an AppendEntries response. -/
theorem serves_handleAppendEntriesResponse (n : Node) (peerID : String) (req : AppendEntriesRequest)
    (resp : AppendEntriesResponse) :
    (n.handleAppendEntriesResponse peerID req resp).Ensures True (fun _ => True) (fun r _ => Serves n r.1) d :=
  Node.handleAppendEntriesResponse_rule (fun _ => serves_stepDown n _) (fun _ _ => .refl n)
    (fun _ _ _ _ => .same rfl rfl (.same rfl rfl (Int.le_refl _)))
    fun _ _ _ _ => serves_advanceCommitIndex (.same rfl rfl (.same rfl rfl (Int.le_refl _)))

/-- Processing an InstallSnapshot response. -/
theorem serves_handleInstallSnapshotResponse (n : Node) (peerID : String) (req : InstallSnapshotRequest)
    (resp : InstallSnapshotResponse) :
    (n.handleInstallSnapshotResponse peerID req resp).Ensures True (fun _ => True) (fun n' _ => Serves n n') d :=
  Node.handleInstallSnapshotResponse_rule (fun _ => serves_stepDown n _) (fun _ _ => .refl n)
    fun _ _ _ => .same rfl rfl (.same rfl rfl (Int.le_refl _))

/-- Starting a command. -/
theorem serves_startCommand (n : Node) (cmd : Bytes) :
    (n.startCommand cmd).Ensures True (fun _ => True) (fun r _ => Serves n r.1) d := by
  refine Node.startCommand_rule (fun _ => .refl n) (fun _ _ _ => ⟨trivial, .refl n⟩) fun _ _ => ?_
  have happended : Serves n (n.appended cmd) := .same rfl rfl (.appended n cmd)
  refine (serves_advanceCommitIndex happended).mono (fun _ h => h) fun moved _ hmoved => ?_
  split <;> exact hmoved.trans (.same rfl rfl (.same rfl rfl (Int.le_refl _)))

/-- Compacting the log. -/
theorem serves_takeSnapshot (n : Node) (index : Int) (data : Bytes) :
    (n.takeSnapshot index data).Ensures True (fun _ => True) (fun r _ => Serves n r.1) d :=
  Node.takeSnapshot_rule (fun _ => .refl n) (fun _ => .refl n) fun _ hentry =>
    ⟨fun _ => ⟨trivial, .refl n⟩, fun _ => ⟨trivial, .same rfl rfl (.compacted hentry data)⟩,
      .same rfl rfl (.compacted hentry data)⟩

/-- Looking for a snapshot to send. -/
theorem serves_installSnapshotRequestForPeer (n : Node) (peerID : String) :
    (n.installSnapshotRequestForPeer peerID).Ensures True (fun _ => True) (fun r _ => Serves n r.1) d :=
  Node.installSnapshotRequestForPeer_rule (fun _ _ => trivial) (fun _ => .refl n) (fun _ _ => .refl n)
    (fun _ _ => .same rfl rfl (.same rfl rfl (Int.le_refl _)))
    fun _ _ _ _ _ => .same rfl rfl (.same rfl rfl (Int.le_refl _))

/-- Building entries to send. -/
theorem serves_appendEntriesRequestForPeer (n : Node) (peerID : String) :
    (n.appendEntriesRequestForPeer peerID).Ensures True (fun _ => True) (fun r _ => Serves n r.1) d :=
  Node.appendEntriesRequestForPeer_rule (fun _ _ _ => trivial) (fun _ => .refl n)
    (fun _ _ => .same rfl rfl (.same rfl rfl (Int.le_refl _)))
    fun _ _ _ _ => .same rfl rfl (.same rfl rfl (Int.le_refl _))

/-- Picking an entry. -/
theorem serves_nextToApply (n : Node) :
    n.nextToApply.Ensures True (fun _ => True) (fun r _ => Serves n r.1) d :=
  Node.nextToApply_rule (fun _ _ _ => trivial) (.refl n)
    fun _ _ _ => .same rfl rfl (.same rfl rfl (Int.le_refl _))

end Sections

/-- The main loop is in an election that it has started. -/
def MainLoop.campaigning : MainLoop → Bool
  | opening _ | polling _ => true
  | idle | following | starting | leading _ | appending _ _ | stopped => false

/-- Where the main loop of a leader can stand. -/
def MainLoop.seated : MainLoop → Bool
  | idle | leading _ | appending _ _ | stopped => true
  | following | starting | opening _ | polling _ => false

/-- A candidate in an election that it has started. -/
def Server.Campaigns (sv : Server) : Prop :=
  sv.node.role = .candidate ∧ sv.main.campaigning = true

/-- Whoever leads is not in an election. -/
def Server.Seated (sv : Server) : Prop :=
  sv.node.role = .leader → sv.main.seated = true

/-- What a step does to the office of a server. -/
structure Server.Officiates (sv sv' : Server) : Prop where
  leads : sv'.node.role = .leader → sv'.node.currentTerm = sv.node.currentTerm ∧
    (sv.Campaigns ∨ (sv.node.role = .leader ∧ sv.node.GrowsInto sv'.node))
  campaigns : sv'.Campaigns →
    (sv.Campaigns ∧ sv'.node.currentTerm = sv.node.currentTerm) ∨ sv.node.currentTerm < sv'.node.currentTerm
  seated : sv'.Seated

namespace Server

variable {sv sv' : Server} {fresh : ℕ} {fates : List Fate} {input : Input} {result : Server × Effects}

/-- A section that serves, in a main loop that does not enter an election. -/
theorem Officiates.served (h : Serves sv.node sv'.node)
    (hmain : sv'.main.campaigning = true → sv.main.campaigning = true)
    (hseated : sv.node.role = .leader → sv'.main.seated = true) : sv.Officiates sv' where
  leads hleads := by
    obtain ⟨hleads₀, hterm, hgrows⟩ := h.leader hleads
    exact ⟨hterm, Or.inr ⟨hleads₀, hgrows⟩⟩
  campaigns hcampaigns := by
    obtain ⟨hcandidate, hterm⟩ := h.candidate hcampaigns.1
    exact Or.inl ⟨⟨hcandidate, hmain hcampaigns.2⟩, hterm⟩
  seated hleads := hseated (h.leader hleads).1

/-- A follower has no office. -/
theorem Officiates.follower (hrole : sv'.node.role = .follower) : sv.Officiates sv' where
  leads hleads := by cases hrole.symm.trans hleads
  campaigns hcampaigns := by cases hrole.symm.trans hcampaigns.1
  seated hleads := by cases hrole.symm.trans hleads

/-- A performed section. -/
theorem Officiates.perform {A : Type} {p : Section A} {next : A → PersistentState → Server × Effects}
    {Q : A → Prop} (hp : p.Ensures True (fun _ => True) (fun r _ => Q r) sv.disk)
    (hnext : ∀ r disk, Q r → sv.Officiates (next r disk).1) : sv.Officiates (sv.perform fates p next).1 :=
  Server.perform_rule (P := fun result => sv.Officiates result.1) hp (Or.inl trivial) hnext
    fun _ disk _ => .follower (newNode_role sv.node.id sv.node.peers disk)

/-- A node that is not the leader moves to the next term. -/
theorem Officiates.startElection (h : sv.node.role ≠ .leader) : sv.Officiates (sv.carryOut fates sv.planStartElection).1 := by
  have helection : sv.node.startElection.Ensures True (fun _ => True)
      (fun r _ => r.1.role = .follower ∨ r.1 = sv.node.standing) sv.disk :=
    Node.startElection_rule (fun _ => ⟨trivial, Or.inl rfl⟩) (Or.inr rfl)
  refine Officiates.perform helection ?_
  rintro ⟨node, req⟩ disk (hfollower | rfl)
  · exact .follower hfollower
  · exact ⟨fun hleads => absurd hleads h, fun _ => Or.inr (Int.lt_succ _), fun hleads => absurd hleads h⟩

/-- A candidate that reads a vote leads in the term of its election. -/
theorem Officiates.voteAnswered {poll : Poll} (hmain : sv.main = .polling poll) (h : sv.node.role ≠ .leader)
    (handle : ℕ) (resp : RequestVoteResponse) :
    sv.Officiates (sv.carryOut fates (sv.planVoteAnswered poll handle resp)).1 := by
  have hcampaigning : sv.main.campaigning = true := by rw [hmain]; rfl
  have hread : (sv.node.handleVoteResponse poll.votes poll.majority resp).Ensures True (fun _ => True)
      (fun r _ => r.1.role = .follower ∨ r.1 = sv.node ∨
        (sv.node.role = .candidate ∧ r.1 = sv.node.becomeLeader ∧ r.2 = none)) sv.disk :=
    Node.handleVoteResponse_rule (fun _ => Node.stepDown_rule (fun _ => ⟨trivial, Or.inl rfl⟩) (Or.inl rfl))
      (fun _ _ => Or.inr (Or.inl rfl)) (fun _ hcandidate _ => Or.inr (Or.inr ⟨hcandidate, rfl, rfl⟩))
      fun _ _ => Or.inr (Or.inl rfl)
  refine Officiates.perform hread ?_
  rintro ⟨node, votes⟩ disk (hfollower | rfl | ⟨hcandidate, rfl, rfl⟩)
  · exact .follower hfollower
  · exact .served (.refl _) (fun _ => hcampaigning) fun hleads => absurd hleads h
  · exact ⟨fun _ => ⟨rfl, Or.inl ⟨hcandidate, hcampaigning⟩⟩, (fun hcampaigns => by cases hcampaigns.1), fun _ => rfl⟩

/-- Every step of a server, whatever becomes of its storage calls. -/
theorem Seated.step (h : sv.Seated) (hmove : sv.Move fresh fates input result) : sv.Officiates result.1 := by
  have hsame : ∀ {sv' : Server}, sv'.node.role = sv.node.role → sv'.node.currentTerm = sv.node.currentTerm →
      sv'.node.snapshotIndex = sv.node.snapshotIndex → sv'.node.log = sv.node.log →
      sv'.node.commitIndex = sv.node.commitIndex → (sv'.main.campaigning = true → sv.main.campaigning = true) →
      (sv.node.role = .leader → sv'.main.seated = true) → sv.Officiates sv' :=
    fun hrole hterm hindex hlog hcommit =>
      .served (.same hrole hterm (.same hindex hlog (Int.le_of_eq hcommit.symm)))
  have hunseated : sv.main.seated = false → sv.node.role ≠ .leader := fun hmain hleads => by
    rw [h hleads] at hmain
    cases hmain
  cases hmove with
  | restart => exact .follower (newNode_role ..)
  | dispatch =>
    simp only [NodeProcess.dispatch]
    split
    · exact hsame rfl rfl rfl rfl rfl (fun hmain => by cases hmain) fun _ => rfl
    · split
      · rename_i hrole
        exact hsame rfl rfl rfl rfl rfl (fun hmain => by cases hmain) fun hleads => by cases hrole.symm.trans hleads
      · rename_i hrole
        exact hsame rfl rfl rfl rfl rfl (fun hmain => by cases hmain) fun hleads => by cases hrole.symm.trans hleads
      · exact hsame rfl rfl rfl rfl rfl (fun hmain => by cases hmain) fun _ => rfl
  | electionReset | callFailed | wakeApply | sendSnapshot | sendEntry => exact hsame rfl rfl rfl rfl rfl id h
  | drain => exact hsame rfl rfl rfl rfl rfl id h
  | recordSnapshot => exact hsame rfl rfl rfl rfl rfl id h
  | electionTimeout =>
    exact ⟨(fun hleads => by cases hleads), (fun hcampaigns => by cases hcampaigns.2), fun hleads => by cases hleads⟩
  | startElection hmain => exact .startElection (hunseated (by rw [hmain]; rfl))
  | openPoll hmain =>
    exact hsame rfl rfl rfl rfl rfl (fun _ => by rw [hmain]; rfl) fun hleads =>
      absurd hleads (hunseated (by rw [hmain]; rfl))
  | voteAnswered hmain => exact .voteAnswered hmain (hunseated (by rw [hmain]; rfl)) _ _
  | pollTimeout | startRoundNotified | startRound =>
    exact hsame rfl rfl rfl rfl rfl (fun hmain => by cases hmain) fun _ => rfl
  | visit =>
    refine Officiates.perform (serves_installSnapshotRequestForPeer ..) ?_
    rintro ⟨node, _ | _ | req⟩ disk hserves
    all_goals exact .served hserves (fun hmain => by cases hmain) fun _ => rfl
  | appendTurn =>
    refine Officiates.perform (serves_appendEntriesRequestForPeer ..) ?_
    rintro ⟨node, _ | _ | req⟩ disk hserves
    all_goals exact .served hserves (fun hmain => by cases hmain) fun _ => rfl
  | appendAnswered =>
    exact .perform (serves_handleAppendEntriesResponse ..) fun r disk hserves => .served hserves id h
  | installAnswered =>
    exact .perform (serves_handleInstallSnapshotResponse ..) fun r disk hserves => .served hserves id h
  | signal =>
    refine hsame ?_ ?_ ?_ ?_ ?_ id h
    all_goals
      simp only [NodeProcess.stepSignal]
      split <;> split <;> rfl
  | finish | notify => exact hsame rfl rfl rfl rfl rfl id h
  | receive req =>
    cases req with
    | vote req =>
      refine Officiates.perform (serves_handleRequestVote _ req) ?_
      rintro ⟨node, _ | resp⟩ disk hserves <;> exact .served hserves id h
    | append req =>
      refine Officiates.perform (serves_handleAppendEntries _ req) ?_
      rintro ⟨node, _ | resp⟩ disk hserves <;> exact .served hserves id h
    | install req =>
      refine Officiates.perform (serves_handleInstallSnapshot _ req) ?_
      rintro ⟨node, _ | resp⟩ disk hserves <;> exact .served hserves id h
  | startCommand cmd => exact .perform (serves_startCommand _ cmd) fun r disk hserves => .served hserves id h
  | takeSnapshot index data =>
    refine Officiates.perform (serves_takeSnapshot _ index data) ?_
    rintro ⟨node, _ | _⟩ disk hserves <;> exact .served hserves id h
  | pickEntry => exact .perform (serves_nextToApply _) fun r disk hserves => .served hserves id h

/-- A step of a server with the leader that it shows. -/
def driveLeading (sv : Server) (drive : Drive) : Option (Server × List Node) :=
  (sv.step drive.fresh drive.fates drive.input).map fun (after, _) =>
    (after, if after.node.role = .leader then [after.node] else [])

/-- The server has been a leader once. It has stored that term; if it leads it still, its log has grown, and it
cannot win it again. -/
structure Led (sv : Server) (leader : Node) : Prop where
  stored : leader.currentTerm ≤ sv.disk.hard.currentTerm
  grown : sv.node.role = .leader → sv.node.currentTerm = leader.currentTerm → leader.GrowsInto sv.node
  ended : sv.Campaigns → leader.currentTerm < sv.node.currentTerm

/-- A server remembers that it has led. -/
theorem Led.step {leader : Node} (h : sv.Led leader) (hballot : sv.node.BallotSaved sv.disk)
    (hstored : sv.disk.hard.Precedes sv'.disk.hard) (hoffice : sv.Officiates sv') : sv'.Led leader where
  stored := by
    have := h.stored
    rcases hstored with hlater | ⟨hsame, _⟩ <;> omega
  grown hleads hterm := by
    obtain ⟨hsame, hcampaigns | ⟨hleads₀, hgrows⟩⟩ := hoffice.leads hleads
    · have := h.ended hcampaigns
      omega
    · exact (h.grown hleads₀ (hsame.symm.trans hterm)).trans hgrows
  ended hcampaigns := by
    have := h.stored
    have := hballot.ahead
    rcases hoffice.campaigns hcampaigns with ⟨hbefore, hsame⟩ | hlater
    · have := h.ended hbefore
      omega
    · omega

end Server

/-- **A leader only appends.** In every run of a server from any stored state, as long as terms and indices are in
range, whatever reaches it, whichever storage calls fail and whenever it crashes: the terms that it leads never
decrease, and between two moments at which it leads one term its log has lost no entry but to its own snapshots, and
neither its last index nor its commit index has decreased. -/
theorem leader_only_appends {h : History Server Node}
    (run : HistoryReachable Server.IsNew Server.Fits Server.driveLeading h) :
    h.past.Pairwise fun leader earlier =>
      earlier.currentTerm ≤ leader.currentTerm ∧
        (leader.currentTerm = earlier.currentTerm → earlier.GrowsInto leader) := by
  refine HistoryReachable.pairwise (P := fun sv => sv.Reliable ∧ sv.Seated) (V := Server.Led) ?_ ?_ run
  · rintro sv ⟨id, peers, disk, rfl⟩
    exact ⟨.boot id peers disk, fun _ => rfl⟩
  · rintro sv drive sv' seen ⟨hreliable, hseated⟩ _ hobserved
    obtain ⟨⟨after, effects⟩, hstep, hshown⟩ := Option.map_eq_some_iff.mp hobserved
    cases hshown
    obtain ⟨hreliable', hstored, _⟩ := hreliable.step (Server.Move.of_step hstep)
    have hoffice := hseated.step (Server.Move.of_step hstep)
    have hshown : ∀ leader ∈ (if sv'.node.role = .leader then [sv'.node] else []),
        leader = sv'.node ∧ sv'.node.role = .leader := by
      intro leader hleader
      split at hleader
      · exact ⟨List.mem_singleton.mp hleader, ‹_›⟩
      · cases hleader
    have hsaved : sv'.node.role = .leader → sv'.node.currentTerm = sv'.disk.hard.currentTerm :=
      fun hleads => (hreliable'.ballot.saved (Or.inr hleads)).1
    refine ⟨⟨hreliable', hoffice.seated⟩, fun leader hled => hled.step hreliable.ballot hstored hoffice,
      fun leader hleader => ?_, ?_, fun leader hleader earlier hearlier => ?_⟩
    · obtain ⟨rfl, hleads⟩ := hshown leader hleader
      exact ⟨Int.le_of_eq (hsaved hleads), fun _ _ => .refl _, fun hcampaigns => by cases hleads.symm.trans hcampaigns.1⟩
    · split <;> simp
    · obtain ⟨rfl, hleads⟩ := hshown leader hleader
      have hled := hearlier.step hreliable.ballot hstored hoffice
      exact ⟨hsaved hleads ▸ hled.stored, hled.grown hleads⟩

/-- A server of three wins an election, takes two commands, has the first one stored by `b` and compacts its log. -/
def compactingLeader : List Drive :=
  [.of .dispatch, .of .electionTimeout, .of .dispatch, .of .startElection, .of .openPoll,
    .of (.voteAnswered 0 { term := 1, voteGranted := true }), .of .dispatch, .of (.startCommand [7]),
    .of (.startRound false), .of (.visit "b"), { fresh := 2, fates := [], input := .appendTurn }, .of (.startCommand [8]),
    .of (.appendAnswered 2 { term := 1, success := true, conflictTerm := 0, conflictIndex := 0 }),
    .of (.takeSnapshot 1 [])]

/-- The last entry of the leader is still there after it has compacted the log. -/
theorem leader_only_appends_while_compacting :
    ∃ h : History Server Node, HistoryReachable Server.IsNew Server.Fits Server.driveLeading h ∧
      h.past.map (fun n => (n.snapshotIndex, n.commitIndex, n.log.map LogEntry.command)) =
        [(1, 1, [[8]]), (0, 1, [[7], [8]]), (0, 0, [[7], [8]]), (0, 0, [[7]]), (0, 0, [[7]]), (0, 0, [[7]]),
          (0, 0, [[7]]), (0, 0, []), (0, 0, [])] ∧
      h.past.Pairwise fun leader earlier =>
        earlier.currentTerm ≤ leader.currentTerm ∧
          (leader.currentTerm = earlier.currentTerm → earlier.GrowsInto leader) := by
  have hrun : (execute (fun h drive => h.state.Fits drive) (History.step Server.driveLeading)
      { state := Server.boot "a" ["a", "b", "c"] .empty, past := [] } compactingLeader).map
      (fun h => h.past.map fun n => (n.snapshotIndex, n.commitIndex, n.log.map LogEntry.command)) =
        some [(1, 1, [[8]]), (0, 1, [[7], [8]]), (0, 0, [[7], [8]]), (0, 0, [[7]]), (0, 0, [[7]]), (0, 0, [[7]]),
          (0, 0, [[7]]), (0, 0, []), (0, 0, [])] := by
    decide +kernel
  have hnew : Server.IsNew (Server.boot "a" ["a", "b", "c"] .empty) := ⟨_, _, _, rfl⟩
  obtain ⟨h, hh, hpast⟩ : ∃ h, HistoryReachable Server.IsNew Server.Fits Server.driveLeading h ∧ _ = _ :=
    exists_history_of_execute hnew hrun
  exact ⟨h, hh, hpast, leader_only_appends hh⟩

end ConsensusLab.Raft
