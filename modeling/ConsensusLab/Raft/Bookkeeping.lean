import ConsensusLab.Raft.HandlerRules
import ConsensusLab.Raft.ReplicationRules

/-!
# What a step does to a leader's bookkeeping

The in-flight flags, the progress maps and the send goroutines belong to the process and
not to a term: they survive the loss of an office. Without storage faults a step leaves
them alone, or does one of a few things to them, which are named here once.
-/

namespace ConsensusLab.Raft

open Foundation

/-- A goroutine in this phase waits for the response to its call. -/
def SendPhase.waiting : SendPhase → Bool
  | waitingAppend _ | waitingInstall _ => true
  | signalling _ | finishing => false

/-- The node has kept its flags and its progress maps, and its term if it is in office. -/
structure Node.KeepsBooks (n n' : Node) : Prop where
  flags : n'.replicateInFlight = n.replicateInFlight
  progress : ∀ p, p ≠ n.id → n'.nextIndex p = n.nextIndex p ∧ n'.matchIndex p = n.matchIndex p
  office : n'.role = .leader → n.role = .leader ∧ n'.currentTerm = n.currentTerm

/-- The goroutines are those there were, some of them past their wait. -/
structure Carries (sends sends' : List Send) : Prop where
  peers : sends'.map Send.peer = sends.map Send.peer
  phases : ∀ send ∈ sends', send ∈ sends ∨ send.phase.waiting = false

/-- The same, with the goroutine of a call past its wait. -/
structure Releases (sends : List Send) (handle : ℕ) (sends' : List Send) : Prop extends Carries sends sends' where
  released : ∀ send ∈ sends', send.handle = handle → send.phase.waiting = false

/-- What a step on an input does to a leader's bookkeeping; `fresh` names the next call. -/
inductive Server.Books (sv : Server) (fresh : ℕ) (input : Input) (after : Server) : Prop
  /-- The process is new. -/
  | rebooted (hrole : after.node.role ≠ .leader) (hsends : after.sends = [])
  | kept (hnode : sv.node.KeepsBooks after.node) (hsends : Carries sv.sends after.sends)
  | elected {poll : Poll} (hmain : sv.main = .polling poll) (hrole : sv.node.role = .candidate)
      (hnode : after.node = sv.node.becomeLeader) (hsends : after.sends = sv.sends)
  /-- A call is started for a peer that had none. -/
  | started {peer : String} {phase : SendPhase} (hidle : sv.node.replicateInFlight peer = false)
      (hnode : after.node = sv.node.sending peer)
      (hsends : after.sends = { handle := fresh, peer := peer, phase := phase } :: sv.sends)
      (happend : ∀ req, phase = .waitingAppend req →
        sv.node.appendEntriesRequest (max 1 (sv.node.nextIndex peer)) = some req)
      (hinstall : ∀ req, phase = .waitingInstall req → sv.node.nextIndex peer ≤ sv.node.snapshotIndex ∧
        ∃ snap, sv.node.snapshot = some snap ∧ req = sv.node.snapshotRequest snap)
  /-- A goroutine ends. -/
  | finished {send : Send} (hinput : input = .finish send.handle) (hsend : send ∈ sv.sends)
      (hflags : after.node.replicateInFlight = Function.update sv.node.replicateInFlight send.peer false)
      (hnode : sv.node.KeepsBooks { after.node with replicateInFlight := sv.node.replicateInFlight })
      (hsends : after.sends = sv.sends.filter fun s => s.handle ≠ send.handle)
  /-- The node's own request of its term is rejected. -/
  | rejected {send : Send} {req : AppendEntriesRequest} {resp : AppendEntriesResponse}
      (hinput : input = .appendAnswered send.handle resp) (hsend : send ∈ sv.sends)
      (hphase : send.phase = .waitingAppend req) (hrole : sv.node.role = .leader)
      (hterm : req.term = sv.node.currentTerm ∧ resp.term ≤ req.term) (hresp : resp.success = false)
      (hnode : after.node = sv.node.backedOff send.peer resp) (hsends : Releases sv.sends send.handle after.sends)
  /-- Entries are accepted. -/
  | accepted {send : Send} {req : AppendEntriesRequest} {resp : AppendEntriesResponse}
      (hinput : input = .appendAnswered send.handle resp) (hsend : send ∈ sv.sends)
      (hphase : send.phase = .waitingAppend req) (hrole : sv.node.role = .leader)
      (hterm : req.term = sv.node.currentTerm ∧ resp.term ≤ req.term) (hresp : resp.success = true)
      (hnode : (sv.node.recordProgress send.peer
        (req.prevLogIndex + req.entries.length)).KeepsBooks after.node)
      (hsends : Releases sv.sends send.handle after.sends)
  /-- A snapshot is accepted. -/
  | installed {send : Send} {req : InstallSnapshotRequest} {resp : InstallSnapshotResponse}
      (hinput : input = .installAnswered send.handle resp) (hsend : send ∈ sv.sends)
      (hphase : send.phase = .waitingInstall req) (hrole : sv.node.role = .leader)
      (hterm : req.term = sv.node.currentTerm ∧ resp.term ≤ req.term)
      (hnode : (sv.node.recordProgress send.peer req.lastIncludedIndex).KeepsBooks after.node)
      (hsends : Releases sv.sends send.handle after.sends)

variable {n n' : Node} {d : PersistentState} {sv : Server}

section Sections

/-- A node whose books are untouched. -/
theorem Node.KeepsBooks.of_eq (hflags : n'.replicateInFlight = n.replicateInFlight)
    (hnext : n'.nextIndex = n.nextIndex) (hmatch : n'.matchIndex = n.matchIndex)
    (hoffice : n'.role = .leader → n.role = .leader ∧ n'.currentTerm = n.currentTerm) : n.KeepsBooks n' :=
  ⟨hflags, fun p _ => ⟨congrFun hnext p, congrFun hmatch p⟩, hoffice⟩

/-- A node that keeps its role and its term. -/
theorem Node.KeepsBooks.same (hflags : n'.replicateInFlight = n.replicateInFlight)
    (hnext : n'.nextIndex = n.nextIndex) (hmatch : n'.matchIndex = n.matchIndex)
    (hrole : n'.role = n.role) (hterm : n'.currentTerm = n.currentTerm) : n.KeepsBooks n' :=
  .of_eq hflags hnext hmatch fun hl => ⟨hrole.symm.trans hl, hterm⟩

/-- A node that becomes a follower. -/
theorem Node.KeepsBooks.retired (hflags : n'.replicateInFlight = n.replicateInFlight)
    (hnext : n'.nextIndex = n.nextIndex) (hmatch : n'.matchIndex = n.matchIndex)
    (hrole : n'.role = .follower) : n.KeepsBooks n' :=
  .of_eq hflags hnext hmatch fun hl => by rw [hrole] at hl; cases hl

/-- Handling a vote request. -/
theorem books_handleRequestVote (req : RequestVoteRequest) :
    (n.handleRequestVote req).Ensures False (fun _ => True) (fun r _ => n.KeepsBooks r.1) d := by
  have hmoved : ∀ {d₁}, ({ n.adoptTerm req.term with role := .follower }.castVote req).Ensures
      False (fun _ => True) (fun r _ => n.KeepsBooks r.1) d₁ := fun {_} =>
    Node.castVote_rule (.retired rfl rfl rfl rfl) fun _ _ => ⟨nofun, .retired rfl rfl rfl rfl⟩
  exact Node.handleRequestVote_rule (fun _ => .same rfl rfl rfl rfl rfl) (fun _ _ => .same rfl rfl rfl rfl rfl)
    (fun _ _ => ⟨nofun, hmoved⟩) fun _ _ => Node.castVote_rule (.same rfl rfl rfl rfl rfl) fun _ _ =>
      ⟨nofun, .same rfl rfl rfl rfl rfl⟩

/-- Handling entries. -/
theorem books_handleAppendEntries (req : AppendEntriesRequest) :
    (n.handleAppendEntries req).Ensures False (fun _ => True) (fun r _ => n.KeepsBooks r.1) d := by
  -- below the term comparison the node is a follower
  have hmerge : ∀ {n₁ : Node} {d₁}, (n.KeepsBooks n₁ ∧ n₁.role = .follower) →
      (n₁.mergeEntries (req.prevLogIndex + 1) req.entries).Ensures False (fun _ => True)
        (fun r _ => n.KeepsBooks r.1 ∧ r.1.role = .follower) d₁ := by
    intro n₁ d₁ ⟨hbooks, hrole⟩
    have hlog : ∀ l, n.KeepsBooks { n₁ with log := l } ∧ ({ n₁ with log := l } : Node).role = .follower :=
      fun _ => ⟨⟨hbooks.flags, hbooks.progress, hbooks.office⟩, hrole⟩
    exact Node.mergeEntries_rule (fun _ => ⟨hbooks, hrole⟩) (fun _ _ _ _ _ _ _ => ⟨nofun, hlog _⟩)
      fun _ _ _ _ _ _ _ _ => ⟨nofun, nofun, hlog _⟩
  have hcommit : ∀ {n₁ : Node} {d₁}, n.KeepsBooks n₁ →
      (n₁.followCommit req.leaderCommit).Ensures False (fun _ => True) (fun r _ => n.KeepsBooks r.1) d₁ := by
    intro n₁ d₁ hbooks
    exact Node.followCommit_rule (fun _ => hbooks) fun _ =>
      ⟨nofun, ⟨hbooks.flags, hbooks.progress, hbooks.office⟩⟩
  have happend : ∀ {n₁ : Node} {d₁}, (n.KeepsBooks n₁.asFollower ∧ n₁.asFollower.role = .follower) →
      (n₁.appendFromLeader req).Ensures False (fun _ => True) (fun r _ => n.KeepsBooks r.1) d₁ := by
    intro n₁ d₁ hfollows
    refine Node.appendFromLeader_rule (fun _ _ => hfollows.1) fun _ =>
      (hmerge hfollows).mono (fun _ h => h) fun merged d₂ hm => ⟨fun _ _ => hm.1, fun _ => ?_⟩
    exact (hcommit hm.1).mono (fun _ h => h) fun final d₃ hf => ⟨fun _ _ => hf, fun _ => hf⟩
  exact Node.handleAppendEntries_rule (fun _ => .same rfl rfl rfl rfl rfl)
    (fun _ _ => .same rfl rfl rfl rfl rfl)
    (fun _ _ => ⟨nofun, happend ⟨.retired rfl rfl rfl rfl, rfl⟩⟩)
    fun _ _ => happend ⟨.retired rfl rfl rfl rfl, rfl⟩

/-- Handling a snapshot. -/
theorem books_handleInstallSnapshot (req : InstallSnapshotRequest) :
    (n.handleInstallSnapshot req).Ensures False (fun _ => True) (fun r _ => n.KeepsBooks r.1) d := by
  have hinstall : ∀ {n₁ : Node} {d₁}, n.KeepsBooks n₁.asFollower →
      (n₁.installFromLeader req).Ensures False (fun _ => True) (fun r _ => n.KeepsBooks r.1) d₁ := by
    intro n₁ d₁ hbooks
    have hinstalled : n.KeepsBooks (n₁.asFollower.adoptSnapshot req.snapshot).notifyApply :=
      ⟨hbooks.flags, hbooks.progress, hbooks.office⟩
    exact Node.installFromLeader_rule (fun _ => hbooks) fun _ =>
      ⟨nofun, Node.applySnapshot_rule ⟨nofun, hinstalled⟩ fun _ => ⟨nofun, hinstalled⟩⟩
  exact Node.handleInstallSnapshot_rule (fun _ => .same rfl rfl rfl rfl rfl)
    (fun _ _ => .same rfl rfl rfl rfl rfl) (fun _ _ => ⟨nofun, hinstall (.retired rfl rfl rfl rfl)⟩)
    fun _ _ => hinstall (.retired rfl rfl rfl rfl)

/-- Stepping down. -/
theorem books_stepDown (term : Int) :
    (n.stepDown term).Ensures False (fun _ => True) (fun n' _ => n.KeepsBooks n') d :=
  Node.stepDown_rule nofun (.retired rfl rfl rfl rfl)

/-- Advancing the commit index. -/
theorem books_advanceCommitIndex :
    n.advanceCommitIndex.Ensures False (fun _ => True) (fun r _ => n.KeepsBooks r.1) d :=
  Node.advanceCommitIndex_rule (fun _ => trivial) (.same rfl rfl rfl rfl rfl) fun _ _ =>
    ⟨nofun, .same rfl rfl rfl rfl rfl⟩

/-- Starting a command changes only what the leader knows about itself. -/
theorem books_startCommand (cmd : Bytes) :
    (n.startCommand cmd).Ensures False (fun _ => True) (fun r _ => n.KeepsBooks r.1) d := by
  refine Node.startCommand_rule (fun _ => .same rfl rfl rfl rfl rfl) (fun _ _ => nofun) fun _ _ =>
    books_advanceCommitIndex.mono (fun _ h => h) fun moved _ hm => ?_
  have hmoved : n.KeepsBooks moved.1 := by
    refine ⟨hm.flags, fun p hp => ?_, hm.office⟩
    obtain ⟨hnext, hmatch⟩ := hm.progress p hp
    rw [hnext, hmatch]
    exact ⟨Function.update_of_ne hp .., Function.update_of_ne hp ..⟩
  change n.KeepsBooks (if moved.2 then moved.1.notifyApply else moved.1).signalReplicate
  split <;> exact ⟨hmoved.flags, hmoved.progress, hmoved.office⟩

/-- Compacting the log. -/
theorem books_takeSnapshot (index : Int) (data : Bytes) :
    (n.takeSnapshot index data).Ensures False (fun _ => True) (fun r _ => n.KeepsBooks r.1) d :=
  Node.takeSnapshot_rule (fun _ => .same rfl rfl rfl rfl rfl) (fun _ => .same rfl rfl rfl rfl rfl) fun _ _ =>
    ⟨nofun, nofun, .same rfl rfl rfl rfl rfl⟩

/-- Picking an entry. -/
theorem books_nextToApply :
    n.nextToApply.Ensures False (fun _ => True) (fun r _ => n.KeepsBooks r.1) d :=
  Node.nextToApply_rule (fun _ _ _ => trivial) (.same rfl rfl rfl rfl rfl) fun _ _ _ =>
    .same rfl rfl rfl rfl rfl

end Sections

section Moves

/-- Goroutines that were left alone. -/
theorem Carries.refl (sends : List Send) : Carries sends sends :=
  ⟨rfl, fun _ hsend => Or.inl hsend⟩

/-- A goroutine that has moved past its wait. -/
theorem releases_setPhase (sends : List Send) (handle : ℕ) {phase : SendPhase} (hphase : phase.waiting = false) :
    Releases sends handle (NodeProcess.setPhase sends handle phase) where
  peers := by
    induction sends with
    | nil => rfl
    | cons send rest ih =>
      simp only [NodeProcess.setPhase, List.map_cons] at ih ⊢
      rw [ih]
      split <;> rfl
  phases := by
    intro send hsend
    obtain ⟨old, hold, rfl⟩ := List.mem_map.mp hsend
    split
    · exact Or.inr hphase
    · exact Or.inl hold
  released := by
    intro send hsend hhandle
    obtain ⟨old, _, rfl⟩ := List.mem_map.mp hsend
    by_cases hold : old.handle = handle
    · rw [if_pos hold]
      exact hphase
    · rw [if_neg hold] at hhandle
      exact absurd hhandle hold

/-- A process that was started again. -/
theorem books_reboot {fresh : ℕ} {input : Input} (disk : PersistentState) :
    sv.Books fresh input (sv.reboot disk) := by
  refine .rebooted ?_ rfl
  change (newNode sv.node.id sv.node.peers disk).role ≠ .leader
  rw [newNode_role]
  nofun

/-- A section whose outcome says what it did to the books. -/
theorem Server.Books.perform {A : Type} {fresh : ℕ} {input : Input} {p : Section A}
    {next : A → PersistentState → Server × Effects} {Q : A → PersistentState → Prop}
    (hp : p.Ensures False (fun _ => True) Q sv.disk)
    (hnext : ∀ r disk, Q r disk → sv.Books fresh input (next r disk).1) :
    sv.Books fresh input (sv.perform [] p next).1 :=
  Server.perform_rule (P := fun result => sv.Books fresh input result.1) hp (Or.inr rfl) hnext
    fun _ disk _ => books_reboot disk

/-- A handler leaves the books alone. -/
theorem books_receive {fresh : ℕ} (req : Request) :
    sv.Books fresh (.receive req) (sv.carryOut [] (sv.planReceive req)).1 := by
  have hhandled : ∀ {R : Type} (wrap : R → Reply) (r : Node × Except RaftError R) disk,
      sv.node.KeepsBooks r.1 → sv.Books fresh (.receive req) (Server.onDisk disk (sv.handled wrap r)).1 := by
    intro R wrap r disk hbooks
    obtain ⟨node, _ | _⟩ := r <;> exact .kept hbooks (.refl _)
  cases req with
  | vote req => exact .perform (books_handleRequestVote req) (hhandled _)
  | append req => exact .perform (books_handleAppendEntries req) (hhandled _)
  | install req => exact .perform (books_handleInstallSnapshot req) (hhandled _)

/-- Reading a response to entries. -/
theorem books_appendAnswered {fresh : ℕ} {send : Send} {req : AppendEntriesRequest}
    {resp : AppendEntriesResponse} (hsend : send ∈ sv.sends) (hphase : send.phase = .waitingAppend req) :
    sv.Books fresh (.appendAnswered send.handle resp) (sv.carryOut [] (sv.planAppendAnswered send req resp)).1 := by
  have hsends : ∀ signals,
      Releases sv.sends send.handle (NodeProcess.setPhase sv.sends send.handle (.signalling signals)) :=
    fun _ => releases_setPhase _ _ rfl
  refine .perform (Q := fun r _ => sv.node.KeepsBooks r.1 ∨
    (sv.node.role = .leader ∧ (req.term = sv.node.currentTerm ∧ resp.term ≤ req.term) ∧
      ((resp.success = false ∧ r.1 = sv.node.backedOff send.peer resp) ∨ (resp.success = true ∧
        (sv.node.recordProgress send.peer (req.prevLogIndex + req.entries.length)).KeepsBooks r.1)))) ?_ ?_
  · refine Node.handleAppendEntriesResponse_rule
      (fun _ => (books_stepDown _).mono (fun _ h => h) fun _ _ hm => Or.inl hm)
      (fun _ _ => Or.inl (.same rfl rfl rfl rfl rfl))
      (fun hle hrole hterm hresp => Or.inr ⟨hrole, ⟨hterm, hterm ▸ hle⟩, Or.inl ⟨hresp, rfl⟩⟩)
      fun hle hrole hterm hresp => books_advanceCommitIndex.mono (fun _ h => h) fun _ _ hm =>
        Or.inr ⟨hrole, ⟨hterm, hterm ▸ hle⟩, Or.inr ⟨hresp, hm⟩⟩
  · rintro ⟨node, signals⟩ disk (hkept | ⟨hrole, hterm, ⟨hresp, hnode⟩ | ⟨hresp, hnode⟩⟩)
    · exact .kept hkept (hsends signals).toCarries
    · exact .rejected rfl hsend hphase hrole hterm hresp hnode (hsends signals)
    · exact .accepted rfl hsend hphase hrole hterm hresp hnode (hsends signals)

/-- Reading a response to a snapshot. -/
theorem books_installAnswered {fresh : ℕ} {send : Send} {req : InstallSnapshotRequest}
    {resp : InstallSnapshotResponse} (hsend : send ∈ sv.sends) (hphase : send.phase = .waitingInstall req) :
    sv.Books fresh (.installAnswered send.handle resp) (sv.carryOut [] (sv.planInstallAnswered send req resp)).1 := by
  have hsends : Releases sv.sends send.handle (NodeProcess.setPhase sv.sends send.handle .finishing) :=
    releases_setPhase _ _ rfl
  refine .perform (Q := fun n' _ => sv.node.KeepsBooks n' ∨
    (sv.node.role = .leader ∧ (req.term = sv.node.currentTerm ∧ resp.term ≤ req.term) ∧
      (sv.node.recordProgress send.peer req.lastIncludedIndex).KeepsBooks n')) ?_ ?_
  · exact Node.handleInstallSnapshotResponse_rule
      (fun _ => (books_stepDown _).mono (fun _ h => h) fun _ _ hm => Or.inl hm)
      (fun _ _ => Or.inl (.same rfl rfl rfl rfl rfl))
      fun hle hrole hterm => Or.inr ⟨hrole, ⟨hterm, hterm ▸ hle⟩, .same rfl rfl rfl rfl rfl⟩
  · rintro node disk (hkept | ⟨hrole, hterm, hnode⟩)
    · exact .kept hkept hsends.toCarries
    · exact .installed rfl hsend hphase hrole hterm hnode hsends

/-- A leader's visit to a peer. -/
theorem books_visit {fresh : ℕ} {input : Input} {peer : String} {todo : List String} :
    sv.Books fresh input (sv.carryOut [] (sv.planVisit fresh peer todo)).1 := by
  refine .perform (Q := fun r _ => (sv.node.KeepsBooks r.1 ∧ ∀ req, r.2 ≠ some (some req)) ∨
    (sv.node.replicateInFlight peer = false ∧ sv.node.nextIndex peer ≤ sv.node.snapshotIndex ∧
      ∃ snap, sv.node.snapshot = some snap ∧
        r = (sv.node.sending peer, some (some (sv.node.snapshotRequest snap))))) ?_ ?_
  · exact Node.installSnapshotRequestForPeer_rule (fun _ _ => trivial)
      (fun _ => Or.inl ⟨.same rfl rfl rfl rfl rfl, nofun⟩)
      (fun _ _ => Or.inl ⟨.same rfl rfl rfl rfl rfl, nofun⟩)
      (fun _ _ => Or.inl ⟨.same rfl rfl rfl rfl rfl, nofun⟩)
      fun _ hidle hneed snap hsnap => Or.inr ⟨hidle, hneed, snap, hsnap, rfl⟩
  · rintro ⟨node, answer⟩ disk (⟨hkept, hnone⟩ | ⟨hidle, hneed, snap, hsnap, hresult⟩)
    · obtain _ | _ | req := answer
      · exact .kept hkept (.refl _)
      · exact .kept hkept (.refl _)
      · exact absurd rfl (hnone req)
    · cases hresult
      exact .started hidle rfl rfl nofun fun req hreq => by
        cases hreq
        exact ⟨hneed, snap, hsnap, rfl⟩

/-- A leader's turn for entries. -/
theorem books_appendTurn {fresh : ℕ} {input : Input} {peer : String} {todo : List String} :
    sv.Books fresh input (sv.carryOut [] (sv.planAppendTurn fresh peer todo)).1 := by
  refine .perform (Q := fun r _ => (sv.node.KeepsBooks r.1 ∧ ∀ req, r.2 ≠ some (some req)) ∨
    (sv.node.replicateInFlight peer = false ∧
      ∃ req, sv.node.appendEntriesRequest (max 1 (sv.node.nextIndex peer)) = some req ∧
        r = (sv.node.sending peer, some (some req)))) ?_ ?_
  · exact Node.appendEntriesRequestForPeer_rule (fun _ _ _ => trivial)
      (fun _ => Or.inl ⟨.same rfl rfl rfl rfl rfl, nofun⟩)
      (fun _ _ => Or.inl ⟨.same rfl rfl rfl rfl rfl, nofun⟩)
      fun _ hidle req hreq => Or.inr ⟨hidle, req, hreq, rfl⟩
  · rintro ⟨node, answer⟩ disk (⟨hkept, hnone⟩ | ⟨hidle, req, hreq, hresult⟩)
    · obtain _ | _ | req := answer
      · exact .kept hkept (.refl _)
      · exact .kept hkept (.refl _)
      · exact absurd rfl (hnone req)
    · cases hresult
      refine .started hidle rfl rfl (fun r hr => ?_) nofun
      cases hr
      exact hreq

/-- Reading a vote: only a victory touches the books. -/
theorem books_voteAnswered {fresh : ℕ} {input : Input} {poll : Poll} {handle : ℕ} {resp : RequestVoteResponse}
    (hmain : sv.main = .polling poll) :
    sv.Books fresh input (sv.carryOut [] (sv.planVoteAnswered poll handle resp)).1 := by
  refine .perform (Q := fun r _ => sv.node.KeepsBooks r.1 ∨
    (sv.node.role = .candidate ∧ r.1 = sv.node.becomeLeader)) ?_ ?_
  · exact Node.handleVoteResponse_rule
      (fun _ => (books_stepDown _).mono (fun _ h => h) fun _ _ hm => Or.inl hm)
      (fun _ _ => Or.inl (.same rfl rfl rfl rfl rfl)) (fun _ hrole _ => Or.inr ⟨hrole, rfl⟩)
      fun _ _ => Or.inl (.same rfl rfl rfl rfl rfl)
  · rintro ⟨node, votes⟩ disk (hkept | ⟨hrole, hnode⟩)
    · exact .kept hkept (.refl _)
    · exact .elected hmain hrole hnode rfl

/-- Every step does one of these things, as long as leaders do not campaign. -/
theorem Server.Move.books {fresh : ℕ} {input : Input} {result : Server × Effects}
    (hmove : sv.Move fresh [] input result) (hoffice : sv.main = .starting → sv.node.role ≠ .leader) :
    sv.Books fresh input result.1 := by
  have hsame : ∀ {after : Server}, after.node.replicateInFlight = sv.node.replicateInFlight →
      after.node.nextIndex = sv.node.nextIndex → after.node.matchIndex = sv.node.matchIndex →
      after.node.role = sv.node.role → after.node.currentTerm = sv.node.currentTerm →
      after.sends = sv.sends → sv.Books fresh input after := by
    intro after h₁ h₂ h₃ h₄ h₅ h₆
    exact .kept (.same h₁ h₂ h₃ h₄ h₅) (h₆ ▸ .refl _)
  cases hmove with
  | restart => exact books_reboot _
  | dispatch =>
    simp only [NodeProcess.dispatch]
    split
    · exact hsame rfl rfl rfl rfl rfl rfl
    · split <;> exact hsame rfl rfl rfl rfl rfl rfl
  | electionReset | pollTimeout | startRoundNotified | startRound | openPoll | notify | wakeApply | drain
  | sendSnapshot | recordSnapshot | sendEntry => exact hsame rfl rfl rfl rfl rfl rfl
  | electionTimeout => exact .kept (.of_eq rfl rfl rfl nofun) (.refl _)
  | startElection hmain =>
    refine .perform (Node.startElection_rule nofun ?_) fun r _ hr => .kept hr (.refl _)
    exact Node.KeepsBooks.of_eq rfl rfl rfl fun hl => absurd hl (hoffice hmain)
  | voteAnswered hmain => exact books_voteAnswered hmain
  | visit => exact books_visit
  | appendTurn => exact books_appendTurn
  | appendAnswered hsend hphase => exact books_appendAnswered hsend hphase
  | installAnswered hsend hphase => exact books_installAnswered hsend hphase
  | callFailed handle => exact .kept (.same rfl rfl rfl rfl rfl) (releases_setPhase _ _ rfl).toCarries
  | signal =>
    refine .kept ?_ (releases_setPhase _ _ rfl).toCarries
    simp only [NodeProcess.stepSignal]
    split <;> split <;> exact .same rfl rfl rfl rfl rfl
  | @finish send hsend => exact .finished rfl hsend rfl (.same rfl rfl rfl rfl rfl) rfl
  | receive req => exact books_receive req
  | startCommand cmd => exact .perform (books_startCommand cmd) fun r _ hr => .kept hr (.refl _)
  | takeSnapshot index data =>
    refine .perform (books_takeSnapshot index data) fun r _ hr => ?_
    obtain ⟨node, _ | _⟩ := r <;> exact .kept hr (.refl _)
  | pickEntry => exact .perform books_nextToApply fun r _ hr => .kept hr (.refl _)

end Moves

end ConsensusLab.Raft
