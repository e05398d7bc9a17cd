import ConsensusLab.Raft.Availability
import ConsensusLab.Raft.ReplicationWakeUps

/-!
# A leader at rest

Notifications alone, without the heartbeat ticker, drive replication to its end: when a
leader has come to rest, with its main loop asleep, no notification and no call under
way, every peer to which no call has failed has confirmed the leader's whole log, and if
these are enough, all of it is committed. A leader leaves nothing to commit behind when
it goes on, and a next index behind entries of its own term has been confirmed.
-/

namespace ConsensusLab.Raft

open Foundation StorageProgram

/-- What a leader has settled: there is nothing left to commit, and where a peer has confirmed nothing, its next index
is not behind an entry of the leader's term. -/
structure Node.Accounted (n : Node) : Prop where
  settled : n.Settled
  unconfirmed : ∀ p ∈ n.peers, n.matchIndex p = 0 → ∀ i e, n.entryAt i = some e → i < n.nextIndex p →
    e.term ≠ n.currentTerm

/-- If the node leads, its accounts are in order. -/
def Node.Accounts (n : Node) : Prop :=
  n.role = .leader → n.Accounted

variable {n n' : Node} {d : PersistentState}

/-- A node that does not lead has no accounts. -/
theorem Node.Accounts.follower (hrole : n.role = .follower) : n.Accounts := by
  intro hleads
  cases hrole.symm.trans hleads

/-- The accounts of a leader whose log has at most lost a beginning. -/
theorem Node.Accounts.keep (h : n.Accounts) (hrole : n'.role = n.role) (hterm : n'.currentTerm = n.currentTerm)
    (hcommit : n'.commitIndex = n.commitIndex) (hpeers : n'.peers = n.peers) (hquorum : n'.quorumSize = n.quorumSize)
    (hnext : n'.nextIndex = n.nextIndex) (hmatch : n'.matchIndex = n.matchIndex)
    (hentries : ∀ i e, n'.entryAt i = some e → n.entryAt i = some e) : n'.Accounts := by
  intro hleads
  have hold := h (hrole ▸ hleads)
  refine ⟨fun i hi => hold.settled i ⟨hcommit ▸ hi.fresh, ?_, ?_⟩, fun p hp hzero i e he hi => ?_⟩
  · obtain ⟨e, he, hown⟩ := hi.own
    exact ⟨e, hentries i e he, hown.trans hterm⟩
  · have := hi.quorum
    rwa [hquorum, hpeers, hmatch] at this
  · rw [hterm]
    exact hold.unconfirmed p (hpeers ▸ hp) (hmatch ▸ hzero) i e (hentries i e he) (hnext ▸ hi)

section Sections

/-- Deciding on a vote. -/
theorem accounts_castVote (h : n.Accounts) (req : RequestVoteRequest) :
    (n.castVote req).Ensures False (fun _ => True) (fun r _ => r.1.Accounts) d :=
  Node.castVote_rule h fun _ _ => ⟨False.elim, h.keep rfl rfl rfl rfl rfl rfl rfl fun _ _ he => he⟩

/-- Handling a vote request. -/
theorem accounts_handleRequestVote (h : n.Accounts) (req : RequestVoteRequest) :
    (n.handleRequestVote req).Ensures False (fun _ => True) (fun r _ => r.1.Accounts) d :=
  Node.handleRequestVote_rule (fun _ => h) (fun _ _ => h)
    (fun _ _ => ⟨False.elim, accounts_castVote (.follower rfl) req⟩) fun _ _ => accounts_castVote h req

/-- Handling entries. -/
theorem accounts_handleAppendEntries (h : n.Accounts) (req : AppendEntriesRequest) :
    (n.handleAppendEntries req).Ensures True (fun _ => True) (fun r _ => r.1.Accounts) d := by
  have happend : ∀ (n₁ : Node) (d₁ : PersistentState), (n₁.appendFromLeader req).Ensures True (fun _ => True)
      (fun r _ => r.1.Accounts) d₁ :=
    fun n₁ _ => (follows_appendFromLeader n₁ req).mono (fun _ h => h) fun _ _ hrole => .follower hrole
  exact Node.handleAppendEntries_rule (fun _ => h) (fun _ _ => h)
    (fun _ _ => ⟨fun _ => ⟨trivial, h⟩, happend _ _⟩) fun _ _ => happend _ _

/-- Handling a snapshot. -/
theorem accounts_handleInstallSnapshot (h : n.Accounts) (req : InstallSnapshotRequest) :
    (n.handleInstallSnapshot req).Ensures False (fun _ => True) (fun r _ => r.1.Accounts) d := by
  have hinstall : ∀ (n₁ : Node) (d₁ : PersistentState), (n₁.installFromLeader req).Ensures False (fun _ => True)
      (fun r _ => r.1.Accounts) d₁ := by
    intro n₁ d₁
    exact Node.installFromLeader_rule (fun _ => .follower rfl) fun _ => ⟨False.elim,
      Node.applySnapshot_rule ⟨False.elim, .follower rfl⟩ fun _ => ⟨False.elim, .follower rfl⟩⟩
  exact Node.handleInstallSnapshot_rule (fun _ => h) (fun _ _ => h)
    (fun _ _ => ⟨False.elim, hinstall _ _⟩) fun _ _ => hinstall _ _

/-- Stepping down. -/
theorem accounts_stepDown (n : Node) (term : Int) :
    (n.stepDown term).Ensures False (fun _ => True) (fun n' _ => n'.Accounts) d :=
  Node.stepDown_rule False.elim (.follower rfl)

/-- Reading a vote: a victory opens new accounts. -/
theorem accounts_handleVoteResponse (h : n.Accounts) (votes majority : ℕ) (resp : RequestVoteResponse) :
    (n.handleVoteResponse votes majority resp).Ensures False (fun _ => True)
      (fun r _ => r.1.Accounts ∨ (n.role = .candidate ∧ r.1 = n.becomeLeader)) d :=
  Node.handleVoteResponse_rule
    (fun _ => (accounts_stepDown n _).mono (fun _ h => h) fun _ _ hmoved => Or.inl hmoved)
    (fun _ _ => Or.inl h) (fun _ hrole _ => Or.inr ⟨hrole, rfl⟩) fun _ _ => Or.inl h

/-- The accounts of a new leader without an entry of its term. -/
theorem Node.accounted_becomeLeader (hnone : ∀ i e, n.entryAt i = some e → e.term ≠ n.currentTerm) :
    n.becomeLeader.Accounted := by
  refine ⟨fun i hi => ?_, fun p _ _ i e he _ => hnone i e he⟩
  obtain ⟨e, he, hown⟩ := hi.own
  exact hnone i e he hown

/-- Advancing the commit index settles the accounts. -/
theorem accounts_advanceCommitIndex (hcommitted : n.snapshotIndex ≤ n.commitIndex)
    (h : ∀ p ∈ n.peers, n.matchIndex p = 0 → ∀ i e, n.entryAt i = some e → i < n.nextIndex p →
      e.term ≠ n.currentTerm) :
    n.advanceCommitIndex.Ensures False (fun _ => True) (fun r _ => r.1.Accounts) d := by
  refine (Node.ensures_settled hcommitted).mono (fun _ => False.elim) fun r _ ⟨commit, hr, hsettled⟩ _ => ?_
  rw [hr] at hsettled ⊢
  exact ⟨hsettled, h⟩

/-- Starting a command. -/
theorem accounts_startCommand (h : n.Accounts) (cmd : Bytes) (hcommitted : n.snapshotIndex ≤ n.commitIndex)
    (hself : n.id ∉ n.peers) (hnext : n.role = .leader → ∀ p ∈ n.peers, n.nextIndex p ≤ n.lastLogIndex + 1) :
    (n.startCommand cmd).Ensures False (fun _ => True) (fun r _ => r.1.Accounts) d := by
  refine Node.startCommand_rule (fun _ => h) (fun _ _ => False.elim) fun _ hrole => ?_
  have hold := h hrole
  have hunconfirmed : ∀ p ∈ (n.appended cmd).peers, (n.appended cmd).matchIndex p = 0 → ∀ i e,
      (n.appended cmd).entryAt i = some e → i < (n.appended cmd).nextIndex p → e.term ≠ n.currentTerm := by
    intro p hp hzero i e he hi
    have hpid : p ≠ n.id := fun heq => hself (heq ▸ hp)
    have hmatch' : (n.appended cmd).matchIndex p = n.matchIndex p := Function.update_of_ne hpid ..
    have hnext' : (n.appended cmd).nextIndex p = n.nextIndex p := Function.update_of_ne hpid ..
    rw [hmatch'] at hzero
    rw [hnext'] at hi
    have hbound := hnext hrole p hp
    have hlow := (Node.entryAt_eq_some he).1
    -- the new entry is not before the next index
    obtain ⟨own, hown⟩ := Node.exists_entryAt (n := n) (i := i) hlow (by omega)
    have hsame : (n.appended cmd).entryAt i = some own := Node.entryAt_extended hown
    cases hsame.symm.trans he
    exact hold.unconfirmed p hp hzero i e hown hi
  refine (accounts_advanceCommitIndex (n := n.appended cmd) hcommitted hunconfirmed).mono (fun _ h => h)
    fun moved _ hmoved => ?_
  split <;> exact hmoved.keep rfl rfl rfl rfl rfl rfl rfl fun _ _ he => he

/-- Compacting the log. -/
theorem accounts_takeSnapshot (h : n.Accounts) (index : Int) (data : Bytes) :
    (n.takeSnapshot index data).Ensures False (fun _ => True) (fun r _ => r.1.Accounts) d := by
  refine Node.takeSnapshot_rule (fun _ => h) (fun _ => h) fun entry hentry => ⟨False.elim, False.elim, ?_⟩
  refine h.keep rfl rfl rfl rfl rfl rfl rfl fun i e he => ?_
  exact ((Node.entryAt_drop (Int.le_of_lt (Node.entryAt_eq_some hentry).1) rfl).mp he).1

/-- Picking an entry. -/
theorem accounts_nextToApply (h : n.Accounts) :
    n.nextToApply.Ensures False (fun _ => True) (fun r _ => r.1.Accounts) d :=
  Node.nextToApply_rule (fun _ _ _ => trivial) h
    fun _ _ _ => h.keep rfl rfl rfl rfl rfl rfl rfl fun _ _ he => he

/-- Looking for a snapshot to send. -/
theorem accounts_installSnapshotRequestForPeer (h : n.Accounts) (peerID : String) :
    (n.installSnapshotRequestForPeer peerID).Ensures False (fun _ => True) (fun r _ => r.1.Accounts) d :=
  Node.installSnapshotRequestForPeer_rule (fun _ _ => trivial) (fun _ => h) (fun _ _ => h)
    (fun _ _ => h.keep rfl rfl rfl rfl rfl rfl rfl fun _ _ he => he)
    fun _ _ _ _ _ => h.keep rfl rfl rfl rfl rfl rfl rfl fun _ _ he => he

/-- Building entries to send. -/
theorem accounts_appendEntriesRequestForPeer (h : n.Accounts) (peerID : String) :
    (n.appendEntriesRequestForPeer peerID).Ensures False (fun _ => True) (fun r _ => r.1.Accounts) d :=
  Node.appendEntriesRequestForPeer_rule (fun _ _ _ => trivial) (fun _ => h)
    (fun _ _ => h.keep rfl rfl rfl rfl rfl rfl rfl fun _ _ he => he)
    fun _ _ _ _ => h.keep rfl rfl rfl rfl rfl rfl rfl fun _ _ he => he

/-- Recorded progress keeps next indices in front of entries of the leader's term, except for confirmed ones. -/
theorem Node.Accounted.unconfirmed_recordProgress (h : n.Accounted) {peer : String} {matched : Int}
    (hnext : ∀ p ∈ n.peers, 0 ≤ n.matchIndex p ∧ n.matchIndex p < n.nextIndex p) :
    ∀ p ∈ n.peers, (n.recordProgress peer matched).matchIndex p = 0 → ∀ i e, n.entryAt i = some e →
      i < (n.recordProgress peer matched).nextIndex p → e.term ≠ n.currentTerm := by
  intro p hp hzero i e he hi
  have hpositive := hnext p hp
  by_cases hpeer : p = peer
  · subst hpeer
    simp only [Node.recordProgress, Function.update_self] at hzero hi
    exact h.unconfirmed p hp (by omega) i e he (by omega)
  · simp only [Node.recordProgress, Function.update_of_ne hpeer] at hzero hi
    exact h.unconfirmed p hp hzero i e he hi

/-- Processing an AppendEntries response. A rejection moves a next index back. -/
theorem accounts_handleAppendEntriesResponse (h : n.Accounts) (peer : String) (req : AppendEntriesRequest)
    (resp : AppendEntriesResponse) (hcommitted : n.snapshotIndex ≤ n.commitIndex)
    (hnext : n.role = .leader → ∀ p ∈ n.peers, 0 ≤ n.matchIndex p ∧ n.matchIndex p < n.nextIndex p)
    (hback : n.role = .leader → req.term = n.currentTerm → resp.term ≤ n.currentTerm → resp.success = false →
      1 < n.nextIndex peer) :
    (n.handleAppendEntriesResponse peer req resp).Ensures False (fun _ => True) (fun r _ => r.1.Accounts) d := by
  refine Node.handleAppendEntriesResponse_rule (fun _ => accounts_stepDown n _) (fun _ _ => h)
    (fun hle hrole hterm hfailed _ => ?_) fun _ hrole _ _ => ?_
  · have hold := h hrole
    refine ⟨fun i hi => hold.settled i ⟨hi.fresh, hi.own, hi.quorum⟩, fun p hp hzero i e he hi => ?_⟩
    refine hold.unconfirmed p hp hzero i e he ?_
    change i < (n.backedOff peer resp).nextIndex p at hi
    by_cases hpeer : p = peer
    · subst hpeer
      have hlower := n.backOff_lt p resp (hback hrole hterm hle hfailed)
      have hmoved : (n.backedOff p resp).nextIndex p = n.backOff p resp := Function.update_self ..
      omega
    · have hsame : (n.backedOff peer resp).nextIndex p = n.nextIndex p := Function.update_of_ne hpeer ..
      omega
  · exact accounts_advanceCommitIndex hcommitted ((h hrole).unconfirmed_recordProgress (hnext hrole))

/-- Processing an InstallSnapshot response. A snapshot covers only what is committed. -/
theorem accounts_handleInstallSnapshotResponse (h : n.Accounts) (peer : String) (req : InstallSnapshotRequest)
    (resp : InstallSnapshotResponse)
    (hnext : n.role = .leader → ∀ p ∈ n.peers, 0 ≤ n.matchIndex p ∧ n.matchIndex p < n.nextIndex p)
    (hcovered : n.role = .leader → req.term = n.currentTerm → req.lastIncludedIndex ≤ n.commitIndex) :
    (n.handleInstallSnapshotResponse peer req resp).Ensures False (fun _ => True) (fun n' _ => n'.Accounts) d := by
  refine Node.handleInstallSnapshotResponse_rule (fun _ => accounts_stepDown n _) (fun _ _ => h)
    fun _ hrole hterm _ => ?_
  have hold := h hrole
  have hsettled : (n.recordProgress peer req.lastIncludedIndex).Settled :=
    hold.settled.recordProgress (hcovered hrole hterm)
  exact ⟨fun i hi => hsettled i ⟨hi.fresh, hi.own, hi.quorum⟩, hold.unconfirmed_recordProgress (hnext hrole)⟩

end Sections

/-- What is known of a server when it takes a step. -/
structure Server.Orderly (sv : Server) (input : Input) (after : Server) : Prop where
  seated : sv.Seated
  committed : sv.node.snapshotIndex ≤ sv.node.commitIndex
  self : sv.node.id ∉ sv.node.peers
  next : sv.node.role = .leader → ∀ p ∈ sv.node.peers, sv.node.nextIndex p ≤ sv.node.lastLogIndex + 1
  below : sv.node.role = .leader → ∀ p ∈ sv.node.peers,
    0 ≤ sv.node.matchIndex p ∧ sv.node.matchIndex p < sv.node.nextIndex p
  rejected : sv.node.role = .leader → ∀ send ∈ sv.sends, ∀ req resp, send.phase = .waitingAppend req →
    input = .appendAnswered send.handle resp → req.term = sv.node.currentTerm → resp.term ≤ sv.node.currentTerm →
    resp.success = false → 1 < sv.node.nextIndex send.peer
  covered : sv.node.role = .leader → ∀ send ∈ sv.sends, ∀ req, send.phase = .waitingInstall req →
    req.term = sv.node.currentTerm → req.lastIncludedIndex ≤ sv.node.commitIndex
  elected : ∀ poll, sv.main = .polling poll → sv.node.role = .candidate → after.node.role = .leader →
    ∀ i e, sv.node.entryAt i = some e → e.term ≠ sv.node.currentTerm

variable {sv : Server}

/-- Every step keeps the accounts in order. -/
theorem Server.Orderly.accounts {fresh : ℕ} {input : Input} {result : Server × Effects}
    (h : sv.Orderly input result.1) (haccounts : sv.node.Accounts) (hmove : sv.Move fresh [] input result) :
    result.1.node.Accounts := by
  have hkept : ∀ {n' : Node}, n'.role = sv.node.role → n'.currentTerm = sv.node.currentTerm →
      n'.commitIndex = sv.node.commitIndex → n'.peers = sv.node.peers → n'.quorumSize = sv.node.quorumSize →
      n'.nextIndex = sv.node.nextIndex → n'.matchIndex = sv.node.matchIndex → n'.snapshotIndex = sv.node.snapshotIndex →
      n'.log = sv.node.log → n'.Accounts := by
    intro n' hrole hterm hcommit hpeers hquorum hnext hmatch hindex hlog
    refine haccounts.keep hrole hterm hcommit hpeers hquorum hnext hmatch fun i e he => ?_
    rwa [Node.entryAt_congr hindex hlog] at he
  have hperform : ∀ {A : Type} {s : Section A} {next : A → PersistentState → Server × Effects} {Q : A → Prop}
      {faults : Prop}, s.Ensures faults (fun _ => True) (fun r _ => Q r) sv.disk →
      (∀ r disk, Q r → (next r disk).1.node.Accounts) → (sv.perform [] s next).1.node.Accounts := by
    intro A s next Q faults hs hnext
    exact Server.perform_rule (P := fun result => result.1.node.Accounts) hs (Or.inr rfl) hnext
      fun _ disk _ => .follower (newNode_role sv.node.id sv.node.peers disk)
  cases hmove with
  | restart => exact .follower (newNode_role ..)
  | dispatch =>
    simp only [NodeProcess.dispatch]
    split
    · exact haccounts
    · split <;> exact haccounts
  | electionReset | startRoundNotified | wakeApply | drain | recordSnapshot =>
    exact hkept rfl rfl rfl rfl rfl rfl rfl rfl rfl
  | openPoll | pollTimeout | startRound | callFailed | sendSnapshot | sendEntry => exact haccounts
  | electionTimeout => exact fun hleads => by cases hleads
  | startElection hmain =>
    refine hperform (Node.startElection_rule (Q := fun r _ => r.1.Accounts) False.elim fun hleads => ?_)
      fun _ _ hr => hr
    have hloop := h.seated hleads
    rw [hmain] at hloop
    cases hloop
  | @voteAnswered poll handle resp hmain =>
    have helected := h.elected poll hmain
    revert helected
    refine Server.perform_rule (P := fun result => (sv.node.role = .candidate → result.1.node.role = .leader →
      ∀ i e, sv.node.entryAt i = some e → e.term ≠ sv.node.currentTerm) → result.1.node.Accounts)
      (accounts_handleVoteResponse haccounts _ _ resp) (Or.inr rfl) ?_
      fun _ disk _ _ => .follower (newNode_role sv.node.id sv.node.peers disk)
    rintro ⟨node, votes⟩ disk (hkept | ⟨hrole, hwon⟩) helected
    · exact hkept
    · obtain rfl : node = sv.node.becomeLeader := hwon
      exact fun _ => Node.accounted_becomeLeader (helected hrole rfl)
  | visit =>
    refine hperform (accounts_installSnapshotRequestForPeer haccounts _) fun r _ hr => ?_
    obtain ⟨node, _ | _ | _⟩ := r <;> exact hr
  | appendTurn =>
    refine hperform (accounts_appendEntriesRequestForPeer haccounts _) fun r _ hr => ?_
    obtain ⟨node, _ | _ | _⟩ := r <;> exact hr
  | @appendAnswered send req resp hsend hphase =>
    refine hperform (accounts_handleAppendEntriesResponse haccounts _ _ _ h.committed h.below ?_)
      fun _ _ hr => hr
    exact fun hrole => h.rejected hrole send hsend req resp hphase rfl
  | @installAnswered send req resp hsend hphase =>
    refine hperform (accounts_handleInstallSnapshotResponse haccounts _ _ _ h.below ?_) fun _ _ hr => hr
    exact fun hrole => h.covered hrole send hsend req hphase
  | signal =>
    simp only [NodeProcess.stepSignal]
    split <;> split <;> exact hkept rfl rfl rfl rfl rfl rfl rfl rfl rfl
  | finish | notify => exact hkept rfl rfl rfl rfl rfl rfl rfl rfl rfl
  | receive req =>
    have hhandled : ∀ {R : Type} (wrap : R → Reply) (r : Node × Except RaftError R) disk, r.1.Accounts →
        (Server.onDisk disk (sv.handled wrap r)).1.node.Accounts := by
      intro R wrap r disk hr
      obtain ⟨node, _ | _⟩ := r <;> exact hr
    cases req with
    | vote req => exact hperform (accounts_handleRequestVote haccounts req) (hhandled _)
    | append req => exact hperform (accounts_handleAppendEntries haccounts req) (hhandled _)
    | install req => exact hperform (accounts_handleInstallSnapshot haccounts req) (hhandled _)
  | startCommand cmd =>
    exact hperform (accounts_startCommand haccounts cmd h.committed h.self h.next) fun _ _ hr => hr
  | takeSnapshot index data =>
    refine hperform (accounts_takeSnapshot haccounts index data) fun r _ hr => ?_
    obtain ⟨node, _ | _⟩ := r <;> exact hr
  | pickEntry => exact hperform (accounts_nextToApply haccounts) fun _ _ hr => hr

section Runs

variable {m : Membership} {c c' : Cluster} {id : String}

/-- Nobody in a request's term rejects a request that starts at the beginning of the log. -/
theorem rejected_behind_first (run : ClusterReachable m Undisturbed c) :
    ∀ (handle : ℕ) (call : Call) (req : AppendEntriesRequest) (resp : AppendEntriesResponse),
      c.calls[handle]? = some call → call.request = .append req → (handle, Reply.append resp) ∈ c.replies →
      resp.success = false → resp.term ≤ req.term → 0 < req.prevLogIndex := by
  refine run.invariant (P := fun c => ∀ (handle : ℕ) (call : Call) (req : AppendEntriesRequest)
    (resp : AppendEntriesResponse), c.calls[handle]? = some call → call.request = .append req →
    (handle, Reply.append resp) ∈ c.replies → resp.success = false → resp.term ≤ req.term → 0 < req.prevLogIndex) ?_ ?_
  · intro c hfirst handle call req resp hcall
    cases hfirst
    cases hcall
  · intro c c' run ih ⟨act, hcalm, hstep⟩ handle call req resp hcall hrequest hreply hfailed hle
    have run' : ClusterReachable m Undisturbed c' := .next run ⟨act, hcalm, hstep⟩
    have hwired := wired_of_reachable run
    obtain ⟨a, hinv, hrefines⟩ := logRefines_of_undisturbed run'
    obtain ⟨mover, input, served, after, effects, hsource, hmove, rfl⟩ := Cluster.step_cases hstep
    have hmover := (hwired.source hsource).1
    rcases Cluster.mem_record_replies hreply with hold | ⟨rfl, hreplied⟩
    · exact ih handle call req resp (hwired.answered hold (List.prefix_append ..) hcall) hrequest hold hfailed hle
    · obtain ⟨call₀, hcall₀, rfl, rfl⟩ := hsource.serves
      cases (getElem?_of_initial (List.prefix_append ..) hcall₀).symm.trans hcall
      rw [hcalm.1, hrequest] at hmove
      obtain ⟨hterm, hconflict⟩ := (hmove.answersEntries hreplied).rejected hfailed hle
      have hbacked := hrefines.calls _ (List.mem_of_getElem? hcall)
      rw [hrequest] at hbacked
      obtain ⟨t, p, q, k, hback⟩ := hbacked
      have hmirror := (hrefines.servers _ hmover).log
      rw [Cluster.record_servers_self] at hmirror
      by_contra hfirst
      obtain rfl : p = 0 := by
        have := hback.prev
        omega
      have hself : a.term call.callee = t := by
        have hown : after.node.currentTerm = a.term call.callee := hmirror.ballots.term
        have := hback.term
        change after.node.currentTerm = req.term at hterm
        omega
      have hled : a.Led (a.term call.callee) := by
        rw [hself, LogState.Led, hback.leader]
        exact Option.some_ne_none call.caller
      have hconcurs := hinv.concurs_of_commit hled (Nat.zero_le _)
      rw [hself] at hconcurs
      exact hmirror.not_prevConflict hback hterm hconcurs hconflict

/-- A candidate that wins has no entry of its new term. -/
theorem no_own_entry_of_elected (run : ClusterReachable m Undisturbed c) {act : Action} (hcalm : Undisturbed c act)
    (hstep : c.step m.ids act = some c') (hid : id ∈ m.ids) {poll : Poll}
    (hmain : (c.servers id).main = .polling poll) (hrole : (c.servers id).node.role = .candidate)
    (hleads : (c'.servers id).node.role = .leader)
    (hterm : (c'.servers id).node.currentTerm = (c.servers id).node.currentTerm) {i : Int} {e : LogEntry}
    (he : (c.servers id).node.entryAt i = some e) : e.term ≠ (c.servers id).node.currentTerm := by
  obtain ⟨a, hrun, hrefines, _⟩ := progressSound_of_undisturbed run
  have hinv := logInvariant_of_reachable hrun
  obtain ⟨a', path, hrefines'⟩ := hrefines.step hinv hcalm (installsPermitted_true m c act) hstep
  have hinv' := logInvariant_of_reachable (hrun.trans path)
  have hlog := (hrefines.servers id hid).log
  have hlog' := (hrefines'.servers id hid).log
  intro hown
  obtain ⟨j, whole, rfl, hlow, hwhole, rfl⟩ := hlog.logs.window.of_entryAt he
  obtain ⟨t, ht, hstamp⟩ := hlog.logs.window.termAt_of_entryAt he
  obtain ⟨_, hled, _⟩ := hinv.node_follows id j t hlow ht
  -- the term has a leader already, who can only be the winner
  obtain ⟨w, hw⟩ := Option.ne_none_iff_exists'.mp hled
  have hkept := (LogState.Grows.of_path hrun path).leader t w hw
  have hoffice := hinv'.election.in_office id (hlog'.leader hleads).standing
  have hsame : a'.term id = t := by
    have := hlog'.ballots.term
    omega
  rw [hsame, hkept] at hoffice
  cases hoffice
  refine hrefines.no_call_of_term hinv hid hmain hrole hw ?_
  omega

/-- Whoever takes a step in an undisturbed run is orderly. -/
theorem orderly_of_undisturbed (run : ClusterReachable m Undisturbed c) {act : Action} (hcalm : Undisturbed c act)
    {input : Input} {served : Option ℕ} {after : Server} {effects : Effects}
    (hstep : c.step m.ids act = some (c.record id input served after effects))
    (hsource : Cluster.Source m.ids c act id input served)
    (hmove : (c.servers id).Move c.calls.length act.fates input (after, effects)) :
    (c.servers id).Orderly input after := by
  obtain ⟨a, hrun, hrefines, hsound⟩ := progressSound_of_undisturbed run
  have hinv := logInvariant_of_reachable hrun
  have hid := (hrefines.wired.source hsource).1
  have hlog := (hrefines.servers id hid).log
  have hplaced := (hrefines.wired.servers id hid).placed
  have hseated := (tended_of_reachable run).seated id hid
  refine ⟨hseated, ?_, ?_, fun hleads => (hlog.leader hleads).next, fun hleads p hp => ?_,
    fun hleads send hsend req resp hphase hinput hterm hle hfailed => ?_,
    fun hleads send hsend req hphase hterm => ?_, fun poll hmain hrole hleads i e he => ?_⟩
  · have hindex := hlog.logs.window.index
    have hcommit := hlog.logs.commit
    have hsnap := hinv.snap_le id
    omega
  · rw [hplaced.peers, hplaced.self]
    exact fun hmem => (Membership.mem_peers.mp hmem).2 rfl
  · rw [hplaced.peers] at hp
    obtain ⟨hmember, hne⟩ := Membership.mem_peers.mp hp
    have htracks := hsound.leaders id hid hleads p hmember hne
    exact ⟨htracks.nonneg, htracks.below⟩
  · have hcall := ((hrefines.wired.servers id hid).sends send hsend).append req hphase
    have hreply : (send.handle, Reply.append resp) ∈ c.replies := hsource.answered hinput
    have hbehind := rejected_behind_first run _ _ req resp hcall rfl hreply hfailed (hterm ▸ hle)
    have hnext := (hsound.sends id hid hleads send hsend).append req hphase hterm
    omega
  · have hcall := ((hrefines.wired.servers id hid).sends send hsend).install req hphase
    obtain ⟨t, k, hback⟩ := hrefines.calls _ (List.mem_of_getElem? hcall)
    have hself : a.term id = t := by
      have := hlog.ballots.term
      have := hback.term
      omega
    have hcommit := hback.commit
    rw [← hself, ← hinv.office_commit id (hlog.leader hleads).standing] at hcommit
    have hindex := hback.index
    have hown := hlog.logs.commit
    omega
  · have hrecorded : (c.record id input served after effects).servers id = after := Cluster.record_servers_self ..
    refine no_own_entry_of_elected run hcalm hstep hid hmain hrole (by rw [hrecorded]; exact hleads) ?_ he
    rw [hrecorded]
    exact ((hseated.step hmove).leads hleads).1

/-- The accounts of all leaders are in order throughout undisturbed runs. -/
theorem accounts_of_undisturbed (run : ClusterReachable m Undisturbed c) : ∀ id, (c.servers id).node.Accounts := by
  refine run.invariant (P := fun c => ∀ id, (c.servers id).node.Accounts) ?_ ?_
  · intro c hfirst id
    cases hfirst
    exact .follower (newNode_role id m.ids .empty)
  · intro c c' run ih ⟨act, hcalm, hstep⟩ id
    obtain ⟨mover, input, served, after, effects, hsource, hmove, rfl⟩ := Cluster.step_cases hstep
    by_cases hother : id = mover
    · subst hother
      have horderly := orderly_of_undisturbed run hcalm hstep hsource hmove
      rw [hcalm.1] at hmove
      rw [Cluster.record_servers_self]
      exact horderly.accounts (ih id) hmove
    · rw [Cluster.record_servers_of_ne _ _ _ _ _ hother]
      exact ih id

end Runs

/-- A leader that has come to rest: its main loop is asleep between two rounds, there is no notification, and none of
its `sendAppendEntries` and `sendInstallSnapshot` goroutines is left, not even one that has only to notify. -/
structure Server.Resting (sv : Server) : Prop where
  leads : sv.node.role = .leader
  asleep : sv.main = .leading []
  quiet : sv.node.replicateNotify = false
  idle : sv.sends = []
  notified : sv.notifying = 0

/-- A leader at rest has nothing in store for any peer. -/
theorem Server.Resting.attends_none {sv : Server} (h : sv.Resting) {p : String} : ¬sv.Attends p := by
  intro hattends
  cases hattends with
  | notified hnotify => cases h.quiet.symm.trans hnotify
  | notifying hnotifying => exact absurd h.notified hnotifying.ne'
  | ahead hahead =>
    rw [h.asleep] at hahead
    cases hahead
  | pending _ hsend =>
    rw [h.idle] at hsend
    cases hsend
  | served hsend _ _ =>
    rw [h.idle] at hsend
    cases hsend

section Rest

variable {m : Membership} {c : Cluster} {id p : String}

/-- A leader at rest has a peer's confirmation for its whole log, unless a call to the peer has failed. -/
theorem Server.Resting.matched (hrest : (c.servers id).Resting) (run : ClusterReachable m Undisturbed c)
    (hid : id ∈ m.ids) {e : LogEntry} (hlast : (c.servers id).node.entryAt (c.servers id).node.lastLogIndex = some e)
    (hown : e.term = (c.servers id).node.currentTerm) (hp : p ∈ m.ids) (hne : p ≠ id) (hcalls : ¬c.CallFailed id p) :
    (c.servers id).node.matchIndex p = (c.servers id).node.lastLogIndex := by
  obtain ⟨a, _, hrefines, hsound⟩ := progressSound_of_undisturbed run
  have hpeer : p ∈ (c.servers id).node.peers := by
    rw [((wired_of_reachable run).servers id hid).placed.peers]
    exact Membership.mem_peers.mpr ⟨hp, hne⟩
  have hsent : (c.servers id).node.lastLogIndex < (c.servers id).node.nextIndex p := by
    by_contra hlacks
    rcases ((tended_of_reachable run).diligent id hid p hp hne).prompt hrest.leads (by omega) with hfailed | hattends
    · exact hcalls hfailed
    · exact hrest.attends_none hattends
  have hnext := (((hrefines.servers id hid).log).leader hrest.leads).next p hpeer
  rcases (hsound.leaders id hid hrest.leads p hp hne).confirmed with hzero | ⟨hconfirmed, _⟩
  · exact absurd hown (((accounts_of_undisturbed run id) hrest.leads).unconfirmed p hpeer hzero _ e hlast hsent)
  · omega

end Rest

/-- **A leader at rest has committed.** In every undisturbed run, if a leader has come to rest and the last entry of its
log is of its term, then every peer to which no call has failed has confirmed the whole log, and has all of it unless it
has moved to a later term. If these peers and the leader are a majority, everything is committed. The leader needs no
heartbeat for that. -/
theorem resting_leader_has_committed {m : Membership} {c : Cluster} {id : String} {side : Finset String}
    (run : ClusterReachable m Undisturbed c) (hid : id ∈ m.ids) (hrest : (c.servers id).Resting) {e : LogEntry}
    (hlast : (c.servers id).node.entryAt (c.servers id).node.lastLogIndex = some e)
    (hown : e.term = (c.servers id).node.currentTerm)
    (hside : ∀ p ∈ side, p ∈ m.ids ∧ p ≠ id ∧ ¬c.CallFailed id p) :
    (∀ p ∈ side, (c.servers id).node.matchIndex p = (c.servers id).node.lastLogIndex ∧
      ((c.servers p).node.currentTerm = (c.servers id).node.currentTerm → ∀ i own,
        (c.servers id).node.entryAt i = some own →
        i ≤ (c.servers p).node.snapshotIndex ∨ (c.servers p).node.entryAt i = some own)) ∧
    (m.ids.length / 2 < side.card + 1 → (c.servers id).node.commitIndex = (c.servers id).node.lastLogIndex) := by
  have hmatched : ∀ p ∈ side, (c.servers id).node.matchIndex p = (c.servers id).node.lastLogIndex := fun p hp =>
    hrest.matched run hid hlast hown (hside p hp).1 (hside p hp).2.1 (hside p hp).2.2
  refine ⟨fun p hp => ⟨hmatched p hp, fun hterm i own hentry => ?_⟩, fun hmajority => le_antisymm ?_ ?_⟩
  · have hle := (Node.entryAt_eq_some hentry).2.1
    exact holds_of_matched run hid (hside p hp).1 (hside p hp).2.1 hrest.leads hterm hentry
      (hle.trans_eq (hmatched p hp).symm)
  · obtain ⟨a, hinv, hrefines⟩ := logRefines_of_undisturbed run
    have hlogs := (hrefines.servers id hid).log.logs
    have hcommit := hlogs.commit
    have hlength := hlogs.window.lastLogIndex
    have hle := hinv.commit_le id
    omega
  · refine ((accounts_of_undisturbed run id) hrest.leads).settled.committed hlast hown ?_
    have hplaced := ((wired_of_reachable run).servers id hid).placed
    have hcount : side.card ≤ ((normalizePeers id m.ids).filter
        (fun p => (c.servers id).node.matchIndex p ≥ (c.servers id).node.lastLogIndex)).length := by
      refine (Finset.card_le_card fun p hp => ?_).trans (List.toFinset_card_le _)
      rw [List.mem_toFinset, List.mem_filter, Membership.mem_peers, decide_eq_true_eq]
      exact ⟨⟨(hside p hp).1, (hside p hp).2.1⟩, (hmatched p hp).ge⟩
    rw [Node.quorumSize, hplaced.config, hplaced.peers]
    omega

/-- Leader `a` of three has replicated a command to both peers and lets them know that it is committed. -/
theorem resting_leader_has_committed_to_two :
    ∃ c, ClusterReachable threeNodes Undisturbed c ∧ (c.servers "a").Resting ∧
      (c.servers "a").node.lastLogIndex = 1 ∧
      (∀ p ∈ ({"b", "c"} : Finset String),
        (c.servers "a").node.matchIndex p = (c.servers "a").node.lastLogIndex ∧
        ((c.servers p).node.currentTerm = (c.servers "a").node.currentTerm → ∀ i own,
          (c.servers "a").node.entryAt i = some own →
          i ≤ (c.servers p).node.snapshotIndex ∨ (c.servers p).node.entryAt i = some own)) ∧
      (c.servers "a").node.commitIndex = (c.servers "a").node.lastLogIndex := by
  have hrun : ((Cluster.first threeNodes.ids).run threeNodes Undisturbed
      (electionOf "a" 0 1 ++ [.act "a" (.startCommand [7]) [], .act "a" (.startRound true) []] ++
        replicationOf "a" "b" 2 1 ++ replicationOf "a" "c" 3 1 ++ [.act "a" (.startRound true) []] ++
        replicationOf "a" "b" 4 1 ++ replicationOf "a" "c" 5 1)).map
      (fun c => decide (((c.servers "a").node.role = .leader ∧ (c.servers "a").main = .leading [] ∧
        (c.servers "a").node.replicateNotify = false ∧ (c.servers "a").sends.length = 0 ∧
        (c.servers "a").notifying = 0) ∧
        ((c.servers "a").node.lastLogIndex = 1 ∧ (c.servers "a").node.entryAt 1 = some ⟨1, entryCommand, [7]⟩ ∧
          (c.servers "a").node.currentTerm = 1) ∧
        ∀ p ∈ ["b", "c"], p ∈ threeNodes.ids ∧ p ≠ "a" ∧ ¬c.CallFailed "a" p)) = some true := by
    decide +kernel
  obtain ⟨c, run, hfacts⟩ := exists_reachable_of_run hrun
  obtain ⟨⟨hleads, hmain, hquiet, hidle, hnotified⟩, ⟨hlast, hentry, hterm⟩, hpeers⟩ := of_decide_eq_true hfacts
  have hrest : (c.servers "a").Resting := ⟨hleads, hmain, hquiet, List.length_eq_zero_iff.mp hidle, hnotified⟩
  have hside : ∀ p ∈ ({"b", "c"} : Finset String), p ∈ threeNodes.ids ∧ p ≠ "a" ∧ ¬c.CallFailed "a" p :=
    fun p hp => hpeers p (by simpa using hp)
  obtain ⟨hmatched, hcommit⟩ := resting_leader_has_committed run (by decide) hrest
    ((congrArg _ hlast).trans hentry) hterm.symm hside
  exact ⟨c, run, hrest, hlast, hmatched, hcommit (by decide)⟩

end ConsensusLab.Raft
