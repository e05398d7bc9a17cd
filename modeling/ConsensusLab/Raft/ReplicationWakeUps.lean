import ConsensusLab.Raft.ApplyOrder
import ConsensusLab.Raft.Bookkeeping
import ConsensusLab.Raft.FollowerAnswers
import ConsensusLab.Raft.LeaderAppendOnly
import ConsensusLab.Raft.LogRefinement
import ConsensusLab.Raft.Wiring

/-!
# A leader forgets no peer

A leader's main loop sleeps on `replicateNotifyCh` and on its heartbeat ticker. Each peer
has at most one call under way; a round that finds one leaves the peer marked as pending,
and the goroutine of the call notifies the loop at its end. Whether a command goes out
before the next heartbeat depends on all these signals. None of them is lost: a leader
that sleeps while a peer lacks entries has a call to this peer under way that will bring
them or wake it up, unless a call to the peer has failed.
-/

namespace ConsensusLab.Raft

open Foundation StorageProgram

/-- The marks for calls stay as they are and no notification is taken away. -/
structure Node.SameMarks (n n' : Node) : Prop where
  inFlight : n'.replicateInFlight = n.replicateInFlight
  pending : n'.replicatePending = n.replicatePending
  notify : n.replicateNotify = true → n'.replicateNotify = true

/-- The same, and whoever leads afterwards has led before, in the same term, and has as much to send to the
peer. -/
structure Node.Abides (p : String) (n n' : Node) : Prop extends n.SameMarks n' where
  office : n'.role = .leader → n.role = .leader ∧ n'.currentTerm = n.currentTerm ∧
    n'.lastLogIndex = n.lastLogIndex ∧ n'.nextIndex p = n.nextIndex p

variable {n n' n₁ : Node} {d : PersistentState} {p : String}

namespace Node

/-- Nothing happens. -/
theorem SameMarks.refl (n : Node) : n.SameMarks n := ⟨rfl, rfl, fun h => h⟩

/-- One section after another. -/
theorem SameMarks.trans (h : n.SameMarks n₁) (h' : n₁.SameMarks n') : n.SameMarks n' where
  inFlight := h'.inFlight.trans h.inFlight
  pending := h'.pending.trans h.pending
  notify hnotify := h'.notify (h.notify hnotify)

/-- The office and the log stay as they are. -/
theorem Abides.same (hmarks : n.SameMarks n') (hrole : n'.role = n.role) (hterm : n'.currentTerm = n.currentTerm)
    (hlast : n'.lastLogIndex = n.lastLogIndex) (hnext : n'.nextIndex = n.nextIndex) : n.Abides p n' where
  toSameMarks := hmarks
  office hleads := ⟨hrole ▸ hleads, hterm, hlast, congrFun hnext p⟩

/-- Nothing happens. -/
theorem Abides.refl (n : Node) : n.Abides p n := .same (.refl n) rfl rfl rfl rfl

/-- Whoever does not lead has nothing to send. -/
theorem Abides.unseated (hmarks : n.SameMarks n') (hrole : n'.role ≠ .leader) : n.Abides p n' where
  toSameMarks := hmarks
  office hleads := absurd hleads hrole

/-- A follower has nothing to send. -/
theorem Abides.follower (hmarks : n.SameMarks n') (hrole : n'.role = .follower) : n.Abides p n' := by
  refine .unseated hmarks fun hleads => ?_
  cases hrole.symm.trans hleads

end Node

section Sections

/-- Deciding on a vote. -/
theorem abides_castVote (h : n.Abides p n₁) (req : RequestVoteRequest) :
    (n₁.castVote req).Ensures True (fun _ => True) (fun r _ => n.Abides p r.1) d :=
  Node.castVote_rule h fun _ _ => ⟨fun _ => ⟨trivial, h⟩, ⟨⟨h.inFlight, h.pending, h.notify⟩, h.office⟩⟩

/-- Handling a vote request. -/
theorem abides_handleRequestVote (n : Node) (req : RequestVoteRequest) :
    (n.handleRequestVote req).Ensures True (fun _ => True) (fun r _ => n.Abides p r.1) d := by
  have hmoved : n.Abides p { n.adoptTerm req.term with role := .follower } := .follower ⟨rfl, rfl, id⟩ rfl
  exact Node.handleRequestVote_rule (fun _ => .refl n) (fun _ _ => .refl n)
    (fun _ _ => ⟨fun _ => ⟨trivial, .refl n⟩, abides_castVote hmoved req⟩) fun _ _ => abides_castVote (.refl n) req

/-- Taking entries in the current term. -/
theorem abides_appendFromLeader (h : n.SameMarks n₁) (req : AppendEntriesRequest) :
    (n₁.appendFromLeader req).Ensures True (fun _ => True) (fun r _ => n.Abides p r.1) d := by
  have hmarks : n.SameMarks n₁.asFollower := h.trans ⟨rfl, rfl, id⟩
  have hlog : ∀ log, n.SameMarks { n₁.asFollower with log := log } := fun _ => h.trans ⟨rfl, rfl, id⟩
  have hmerge : (n₁.asFollower.mergeEntries (req.prevLogIndex + 1) req.entries).Ensures True (fun _ => True)
      (fun r _ => n.SameMarks r.1 ∧ r.1.role = .follower) d :=
    Node.mergeEntries_rule (fun _ => ⟨hmarks, rfl⟩)
      (fun _ _ _ _ _ _ _ => ⟨fun _ => ⟨trivial, hmarks, rfl⟩, hlog _, rfl⟩)
      fun _ _ _ _ _ _ _ _ => ⟨fun _ => ⟨trivial, hmarks, rfl⟩, fun _ => ⟨trivial, hlog _, rfl⟩, hlog _, rfl⟩
  refine Node.appendFromLeader_rule (fun _ _ => .follower hmarks rfl) fun _ =>
    hmerge.mono (fun _ h => h) fun merged d' hm => ⟨fun _ _ => .follower hm.1 hm.2, fun _ => ?_⟩
  have hcommit : ∀ commit, n.Abides p { merged.1 with commitIndex := commit } :=
    fun _ => .follower (hm.1.trans ⟨rfl, rfl, id⟩) hm.2
  have hfollow : ∀ commit, n.Abides p ({ merged.1 with commitIndex := commit } : Node).notifyApply :=
    fun _ => .follower (hm.1.trans ⟨rfl, rfl, id⟩) hm.2
  exact Node.followCommit_rule (fun _ => ⟨fun _ _ => .follower hm.1 hm.2, fun _ => .follower hm.1 hm.2⟩) fun _ =>
    ⟨fun _ => ⟨trivial, fun _ _ => hcommit _, fun _ => hcommit _⟩, fun _ _ => hfollow _, fun _ => hfollow _⟩

/-- Handling entries. -/
theorem abides_handleAppendEntries (n : Node) (req : AppendEntriesRequest) :
    (n.handleAppendEntries req).Ensures True (fun _ => True) (fun r _ => n.Abides p r.1) d := by
  have hmoved : n.SameMarks (n.adoptTerm req.term) := ⟨rfl, rfl, id⟩
  exact Node.handleAppendEntries_rule (fun _ => .refl n) (fun _ _ => .refl n)
    (fun _ _ => ⟨fun _ => ⟨trivial, .refl n⟩, abides_appendFromLeader hmoved req⟩)
    fun _ _ => abides_appendFromLeader (.refl n) req

/-- Handling a snapshot. -/
theorem abides_handleInstallSnapshot (n : Node) (req : InstallSnapshotRequest) :
    (n.handleInstallSnapshot req).Ensures True (fun _ => True) (fun r _ => n.Abides p r.1) d := by
  have hinstall : ∀ {n₁ : Node} {d₁ : PersistentState}, n.SameMarks n₁ →
      (n₁.installFromLeader req).Ensures True (fun _ => True) (fun r _ => n.Abides p r.1) d₁ := by
    intro n₁ d₁ h
    have hmarks : n.Abides p n₁.asFollower := .follower (h.trans ⟨rfl, rfl, id⟩) rfl
    have hinstalled : n.Abides p (n₁.asFollower.adoptSnapshot req.snapshot).notifyApply :=
      .follower (h.trans ⟨rfl, rfl, id⟩) rfl
    refine Node.installFromLeader_rule (fun _ => hmarks) fun _ => ⟨fun _ => ⟨trivial, hmarks⟩, ?_⟩
    exact Node.applySnapshot_rule ⟨fun _ => ⟨trivial, hinstalled⟩, hinstalled⟩
      fun _ => ⟨fun _ => ⟨trivial, hinstalled⟩, hinstalled⟩
  exact Node.handleInstallSnapshot_rule (fun _ => .refl n) (fun _ _ => .refl n)
    (fun _ _ => ⟨fun _ => ⟨trivial, .refl n⟩, hinstall ⟨rfl, rfl, id⟩⟩) fun _ _ => hinstall (.refl n)

/-- Stepping down. -/
theorem abides_stepDown (n : Node) (term : Int) :
    (n.stepDown term).Ensures True (fun _ => True) (fun n' _ => n.Abides p n') d :=
  Node.stepDown_rule (fun _ => ⟨trivial, .follower ⟨rfl, rfl, id⟩ rfl⟩) (.follower ⟨rfl, rfl, id⟩ rfl)

/-- Standing for election, for a node that does not lead. -/
theorem abides_startElection (hrole : n.role ≠ .leader) :
    n.startElection.Ensures True (fun _ => True) (fun r _ => n.Abides p r.1) d :=
  Node.startElection_rule (fun _ => ⟨trivial, .follower ⟨rfl, rfl, id⟩ rfl⟩) (.unseated ⟨rfl, rfl, id⟩ hrole)

/-- Reading a vote: only a victory changes what there is to send. -/
theorem abides_handleVoteResponse (n : Node) (votes majority : ℕ) (resp : RequestVoteResponse) :
    (n.handleVoteResponse votes majority resp).Ensures True (fun _ => True)
      (fun r _ => n.Abides p r.1 ∨ r.1 = n.becomeLeader) d :=
  Node.handleVoteResponse_rule
    (fun _ => (abides_stepDown n _).mono (fun _ h => h) fun _ _ hmoved => Or.inl hmoved)
    (fun _ _ => Or.inl (.refl n)) (fun _ _ _ => Or.inr rfl) fun _ _ => Or.inl (.refl n)

/-- Advancing the commit index. -/
theorem abides_advanceCommitIndex (n : Node) :
    n.advanceCommitIndex.Ensures True (fun _ => True) (fun r _ => n.Abides p r.1) d :=
  Node.advanceCommitIndex_rule (fun _ => trivial) (.refl n)
    fun _ _ => ⟨fun _ => .same ⟨rfl, rfl, id⟩ rfl rfl rfl rfl, .same ⟨rfl, rfl, id⟩ rfl rfl rfl rfl⟩

/-- Starting a command: it is refused, or the main loop is notified. -/
theorem abides_startCommand (n : Node) (cmd : Bytes) :
    (n.startCommand cmd).Ensures True (fun _ => True)
      (fun r _ => n.Abides p r.1 ∨ (n.SameMarks r.1 ∧ r.1.replicateNotify = true)) d := by
  refine Node.startCommand_rule (fun _ => Or.inl (.refl n)) (fun _ _ _ => ⟨trivial, Or.inl (.refl n)⟩) fun _ _ => ?_
  refine (abides_advanceCommitIndex (p := p) (n.appended cmd)).mono (fun _ h => h) fun moved _ hmoved => Or.inr ?_
  have happended : n.SameMarks (n.appended cmd) := ⟨rfl, rfl, id⟩
  have hmarks := happended.trans hmoved.toSameMarks
  split <;> exact ⟨hmarks.trans ⟨rfl, rfl, fun _ => rfl⟩, rfl⟩

/-- Compacting the log. -/
theorem abides_takeSnapshot (n : Node) (index : Int) (data : Bytes) :
    (n.takeSnapshot index data).Ensures True (fun _ => True) (fun r _ => n.Abides p r.1) d := by
  refine Node.takeSnapshot_rule (fun _ => .refl n) (fun _ => .refl n) fun entry hentry => ?_
  have hcompacted : n.Abides p (n.compactTo (n.snapshotAt index entry data)) := by
    refine .same ⟨rfl, rfl, id⟩ rfl rfl ?_ rfl
    obtain ⟨hlow, hhigh, _⟩ := Node.entryAt_eq_some hentry
    simp only [Node.lastLogIndex, Node.compactTo, Node.snapshotAt, List.length_drop] at hhigh ⊢
    omega
  exact ⟨fun _ => ⟨trivial, .refl n⟩, fun _ => ⟨trivial, hcompacted⟩, hcompacted⟩

/-- Picking an entry. -/
theorem abides_nextToApply (n : Node) :
    n.nextToApply.Ensures True (fun _ => True) (fun r _ => n.Abides p r.1) d :=
  Node.nextToApply_rule (fun _ _ _ => trivial) (.refl n) fun _ _ _ => .same ⟨rfl, rfl, id⟩ rfl rfl rfl rfl

end Sections

/-! ## Who sees to a peer -/

/-- The peers that the current round still has to visit. -/
def MainLoop.todo : MainLoop → List String
  | leading todo => todo
  | appending peer todo => peer :: todo
  | idle | following | starting | opening _ | polling _ | stopped => []

/-- A goroutine in this phase brings the peer all that the leader has, or wakes the main loop up. -/
def SendPhase.Serves (n : Node) : SendPhase → Prop
  | waitingAppend req => req.term = n.currentTerm ∧ n.lastLogIndex ≤ req.lastIndex
  | waitingInstall req => req.term = n.currentTerm
  | signalling signals => signals.replicate = true
  | finishing => False

/-- Why a peer that lacks something is not forgotten. -/
inductive Server.Attends (sv : Server) (p : String) : Prop
  /-- The main loop is about to wake up. -/
  | notified (h : sv.node.replicateNotify = true)
  /-- A goroutine at its end is about to notify the main loop. -/
  | notifying (h : 0 < sv.notifying)
  /-- The current round still comes to the peer. -/
  | ahead (h : p ∈ sv.main.todo)
  /-- The call under way ends with a notification. -/
  | pending (h : sv.node.replicatePending p = true) (hsend : p ∈ sv.sends.map Send.peer)
  /-- The call under way is good enough. -/
  | served {send : Send} (hsend : send ∈ sv.sends) (hpeer : send.peer = p) (hphase : send.phase.Serves sv.node)

/-- The marks for calls under way are exact, and no two goroutines share a peer or a call. -/
structure Server.Slots (sv : Server) : Prop where
  peers : (sv.sends.map Send.peer).Nodup
  handles : (sv.sends.map Send.handle).Nodup
  flags : ∀ q, sv.node.replicateInFlight q = true ↔ q ∈ sv.sends.map Send.peer

/-- If the server leads and the peer lacks entries, somebody sees to the peer, or a call to it has failed. -/
def Server.Prompt (failed : Prop) (p : String) (sv : Server) : Prop :=
  sv.node.role = .leader → sv.node.nextIndex p ≤ sv.node.lastLogIndex → failed ∨ sv.Attends p

/-- What holds of the replication to a peer throughout a run. -/
structure Server.Diligent (failed : Prop) (p : String) (sv : Server) : Prop where
  slots : sv.Slots
  prompt : sv.Prompt failed p

variable {sv after : Server} {failed : Prop}

/-- A request for a peer carries all that the leader has. -/
theorem Node.serves_appendEntriesRequest {next : Int} {req : AppendEntriesRequest}
    (h : n.appendEntriesRequest next = some req) : (SendPhase.waitingAppend req).Serves n := by
  obtain ⟨term, _, hrest⟩ := Option.bind_eq_some_iff.mp h
  obtain ⟨entries, hentries, hdone⟩ := Option.bind_eq_some_iff.mp hrest
  cases hdone
  refine ⟨rfl, ?_⟩
  simp only [AppendEntriesRequest.lastIndex]
  unfold Node.entriesToSend Node.entriesFrom at hentries
  split at hentries
  · split at hentries
    · cases hentries
    · cases hentries
      simp only [Node.lastLogIndex, List.length_drop]
      omega
  · cases hentries
    simp only [List.length_nil]
    omega

/-- A goroutine that serves goes on serving while the leader's log stays as it is. -/
theorem SendPhase.Serves.congr {phase : SendPhase} (h : phase.Serves n) (hterm : n'.currentTerm = n.currentTerm)
    (hlast : n'.lastLogIndex = n.lastLogIndex) : phase.Serves n' := by
  cases phase with
  | waitingAppend req => exact ⟨h.1.trans hterm.symm, hlast ▸ h.2⟩
  | waitingInstall req => exact Eq.trans h hterm.symm
  | signalling signals => exact h
  | finishing => exact h

/-- Whoever saw to a peer still does, or has handed over. -/
theorem Server.Attends.mono (h : sv.Attends p)
    (hnotify : sv.node.replicateNotify = true → after.node.replicateNotify = true)
    (hnotifying : after.notifying = sv.notifying)
    (hpending : sv.node.replicatePending p = true → after.node.replicatePending p = true)
    (hmain : p ∈ sv.main.todo → p ∈ after.main.todo)
    (hpeers : p ∈ sv.sends.map Send.peer → p ∈ after.sends.map Send.peer)
    (hserved : ∀ send ∈ sv.sends, send.peer = p → send.phase.Serves sv.node → after.Attends p) :
    after.Attends p := by
  cases h with
  | notified h => exact .notified (hnotify h)
  | notifying h => exact .notifying (hnotifying ▸ h)
  | ahead h => exact .ahead (hmain h)
  | pending h hsend => exact .pending (hpending h) (hpeers hsend)
  | served hsend hpeer hphase => exact hserved _ hsend hpeer hphase

/-- A new node has no calls under way. -/
theorem newNode_replicateInFlight (id : String) (peers : List String) (ps : PersistentState) (q : String) :
    (newNode id peers ps).replicateInFlight q = false := by
  unfold newNode
  cases ps.snapshot <;> rfl

namespace Server

/-- A goroutine is known by its call. -/
theorem Slots.eq_of_handle (h : sv.Slots) {send other : Send} (hsend : send ∈ sv.sends) (hother : other ∈ sv.sends)
    (heq : other.handle = send.handle) : other = send :=
  List.inj_on_of_nodup_map h.handles hother hsend heq

/-- A goroutine is known by its peer. -/
theorem Slots.eq_of_peer (h : sv.Slots) {send other : Send} (hsend : send ∈ sv.sends) (hother : other ∈ sv.sends)
    (heq : other.peer = send.peer) : other = send :=
  List.inj_on_of_nodup_map h.peers hother hsend heq

/-- The goroutines keep their peers and their calls when one of them moves on. -/
theorem map_setPhase {A : Type} (f : Send → A) (hf : ∀ (send : Send) phase, f { send with phase := phase } = f send)
    (sends : List Send) (handle : ℕ) (phase : SendPhase) : (NodeProcess.setPhase sends handle phase).map f = sends.map f := by
  rw [NodeProcess.setPhase, List.map_map]
  refine List.map_congr_left fun send _ => ?_
  simp only [Function.comp_apply]
  split
  · exact hf send phase
  · rfl

/-- A goroutine stays where it is when another one moves on. -/
theorem mem_setPhase_of_ne {sends : List Send} {send : Send} (hsend : send ∈ sends) {handle : ℕ}
    (hne : send.handle ≠ handle) (phase : SendPhase) : send ∈ NodeProcess.setPhase sends handle phase :=
  List.mem_map.mpr ⟨send, hsend, if_neg hne⟩

/-- A goroutine that has moved on. -/
theorem mem_setPhase_self {sends : List Send} {send : Send} (hsend : send ∈ sends) (phase : SendPhase) :
    { send with phase := phase } ∈ NodeProcess.setPhase sends send.handle phase :=
  List.mem_map.mpr ⟨send, hsend, if_pos rfl⟩

/-- A new process has no goroutines and no marks. -/
theorem Diligent.boot (id : String) (peers : List String) (disk : PersistentState) :
    (boot id peers disk).Diligent failed p where
  slots := by
    refine ⟨List.nodup_nil, List.nodup_nil, fun q => ⟨fun hflag => ?_, fun hmem => absurd hmem List.not_mem_nil⟩⟩
    change (newNode id peers disk).replicateInFlight q = true at hflag
    rw [newNode_replicateInFlight] at hflag
    cases hflag
  prompt hleads := by cases (newNode_role id peers disk).symm.trans hleads

/-- A performed section. -/
theorem Diligent.perform {A : Type} {fates : List Fate} {s : Section A}
    {next : A → PersistentState → Server × Effects} {Q : A → Prop}
    (hs : s.Ensures True (fun _ => True) (fun r _ => Q r) sv.disk)
    (hnext : ∀ r disk, Q r → (next r disk).1.Diligent failed p) :
    (sv.perform fates s next).1.Diligent failed p :=
  Server.perform_rule (P := fun result => result.1.Diligent failed p) hs (Or.inl trivial) hnext
    fun _ disk _ => .boot sv.node.id sv.node.peers disk

section Changes

variable (h : sv.Diligent failed p)
include h

/-- Goroutines and marks stay as they are. -/
theorem Diligent.slots_same (hsends : after.sends = sv.sends)
    (hflags : after.node.replicateInFlight = sv.node.replicateInFlight) : after.Slots where
  peers := hsends ▸ h.slots.peers
  handles := hsends ▸ h.slots.handles
  flags q := by
    rw [hsends, hflags]
    exact h.slots.flags q

/-- A section that abides. -/
theorem Diligent.abides (hnode : sv.node.Abides p after.node)
    (hmain : after.node.role = .leader → p ∈ sv.main.todo → p ∈ after.main.todo)
    (hsends : after.sends = sv.sends) (hnotifying : after.notifying = sv.notifying) : after.Diligent failed p where
  slots := h.slots_same hsends hnode.inFlight
  prompt hleads hlacks := by
    obtain ⟨hleads₀, hterm, hlast, hnext⟩ := hnode.office hleads
    rw [hnext, hlast] at hlacks
    refine (h.prompt hleads₀ hlacks).imp_right fun hattends => ?_
    refine hattends.mono hnode.notify hnotifying (fun hpending => ?_) (hmain hleads) (fun hp => hsends ▸ hp) ?_
    · rw [hnode.pending]
      exact hpending
    · intro send hsend hpeer hphase
      exact .served (hsends ▸ hsend) hpeer (hphase.congr hterm hlast)

/-- The main loop is notified. -/
theorem Diligent.notified (hmarks : sv.node.SameMarks after.node) (hnotify : after.node.replicateNotify = true)
    (hsends : after.sends = sv.sends) : after.Diligent failed p where
  slots := h.slots_same hsends hmarks.inFlight
  prompt _ _ := Or.inr (.notified hnotify)

/-- A round finds a call to a peer under way. -/
theorem Diligent.postponed {q : String} (hbusy : sv.node.replicateInFlight q = true)
    (hnode : after.node = sv.node.postponed q) (hmain : p ≠ q → p ∈ sv.main.todo → p ∈ after.main.todo)
    (hsends : after.sends = sv.sends) (hnotifying : after.notifying = sv.notifying) : after.Diligent failed p where
  slots := h.slots_same hsends (by rw [hnode]; rfl)
  prompt hleads hlacks := by
    rw [hnode] at hleads hlacks
    by_cases hpq : p = q
    · subst hpq
      refine Or.inr (.pending ?_ ?_)
      · rw [hnode]
        exact Function.update_self ..
      · rw [hsends]
        exact (h.slots.flags p).mp hbusy
    · refine (h.prompt hleads hlacks).imp_right fun hattends => ?_
      refine hattends.mono (fun hnotify => ?_) hnotifying (fun hpending => ?_) (hmain hpq) (fun hp => hsends ▸ hp) ?_
      · rw [hnode]
        exact hnotify
      · rw [hnode]
        exact (Function.update_of_ne hpq ..).trans hpending
      · intro send hsend hpeer hphase
        exact .served (hsends ▸ hsend) hpeer (hphase.congr (by rw [hnode]; rfl) (by rw [hnode]; rfl))

/-- A round starts a call to a peer. -/
theorem Diligent.started {q : String} {fresh : ℕ} {phase : SendPhase} (hfresh : ∀ send ∈ sv.sends, send.handle ≠ fresh)
    (hidle : sv.node.replicateInFlight q = false) (hnode : after.node = sv.node.sending q)
    (hmain : p ≠ q → p ∈ sv.main.todo → p ∈ after.main.todo)
    (hsends : after.sends = { handle := fresh, peer := q, phase := phase } :: sv.sends)
    (hnotifying : after.notifying = sv.notifying)
    (hphase : sv.node.nextIndex q ≤ sv.node.lastLogIndex → phase.Serves sv.node) : after.Diligent failed p where
  slots := by
    have hnew : q ∉ sv.sends.map Send.peer := by
      intro hq
      rw [(h.slots.flags q).mpr hq] at hidle
      cases hidle
    have hunused : fresh ∉ sv.sends.map Send.handle := by
      intro hmem
      obtain ⟨send, hsend, heq⟩ := List.mem_map.mp hmem
      exact hfresh send hsend heq
    refine ⟨?_, ?_, fun r => ?_⟩
    · rw [hsends]
      exact List.nodup_cons.mpr ⟨hnew, h.slots.peers⟩
    · rw [hsends]
      exact List.nodup_cons.mpr ⟨hunused, h.slots.handles⟩
    · rw [hsends, hnode, List.map_cons, List.mem_cons]
      change Function.update sv.node.replicateInFlight q true r = true ↔ _
      by_cases hr : r = q
      · rw [hr, Function.update_self]
        exact iff_of_true rfl (Or.inl rfl)
      · rw [Function.update_of_ne hr, h.slots.flags r]
        exact (or_iff_right hr).symm
  prompt hleads hlacks := by
    rw [hnode] at hleads hlacks
    have hterm : after.node.currentTerm = sv.node.currentTerm := by rw [hnode]; rfl
    have hlast : after.node.lastLogIndex = sv.node.lastLogIndex := by rw [hnode]; rfl
    by_cases hpq : p = q
    · subst hpq
      have hsend : { handle := fresh, peer := p, phase := phase } ∈ after.sends := by
        rw [hsends]
        exact List.mem_cons_self
      exact Or.inr (.served hsend rfl ((hphase hlacks).congr hterm hlast))
    · refine (h.prompt hleads hlacks).imp_right fun hattends => ?_
      refine hattends.mono (fun hnotify => ?_) hnotifying (fun hpending => ?_) (hmain hpq) (fun hp => ?_) ?_
      · rw [hnode]
        exact hnotify
      · rw [hnode]
        exact hpending
      · rw [hsends]
        exact List.mem_cons_of_mem _ hp
      · intro send hsend hpeer hserves
        have hsend' : send ∈ after.sends := by
          rw [hsends]
          exact List.mem_cons_of_mem _ hsend
        exact .served hsend' hpeer (hserves.congr hterm hlast)

/-- The goroutine of a call moves on. If it is the one for the peer, what becomes of the peer has to be shown. -/
theorem Diligent.rephased {handle : ℕ} {phase : SendPhase} (hmarks : sv.node.SameMarks after.node)
    (hnode : (∀ send ∈ sv.sends, send.handle = handle → send.peer ≠ p) → sv.node.Abides p after.node)
    (hmain : after.main = sv.main) (hsends : after.sends = NodeProcess.setPhase sv.sends handle phase)
    (hnotifying : after.notifying = sv.notifying)
    (hown : ∀ send ∈ sv.sends, send.handle = handle → send.peer = p → after.Prompt failed p) :
    after.Diligent failed p where
  slots := by
    refine ⟨?_, ?_, fun q => ?_⟩
    · rw [hsends, map_setPhase Send.peer fun _ _ => rfl]
      exact h.slots.peers
    · rw [hsends, map_setPhase Send.handle fun _ _ => rfl]
      exact h.slots.handles
    · rw [hsends, map_setPhase Send.peer fun _ _ => rfl, hmarks.inFlight]
      exact h.slots.flags q
  prompt hleads hlacks := by
    by_cases hmine : ∃ send ∈ sv.sends, send.handle = handle ∧ send.peer = p
    · obtain ⟨send, hsend, hhandle, hpeer⟩ := hmine
      exact hown send hsend hhandle hpeer hleads hlacks
    · have hother : ∀ send ∈ sv.sends, send.handle = handle → send.peer ≠ p :=
        fun send hsend hhandle hpeer => hmine ⟨send, hsend, hhandle, hpeer⟩
      obtain ⟨hleads₀, hterm, hlast, hnext⟩ := (hnode hother).office hleads
      rw [hnext, hlast] at hlacks
      refine (h.prompt hleads₀ hlacks).imp_right fun hattends => ?_
      refine hattends.mono hmarks.notify hnotifying (fun hpending => ?_) (fun hp => hmain ▸ hp) (fun hp => ?_) ?_
      · rw [hmarks.pending]
        exact hpending
      · rw [hsends, map_setPhase Send.peer fun _ _ => rfl]
        exact hp
      · intro send hsend hpeer hserves
        have hsend' : send ∈ after.sends := by
          rw [hsends]
          exact mem_setPhase_of_ne hsend (fun hhandle => hother send hsend hhandle hpeer) phase
        exact .served hsend' hpeer (hserves.congr hterm hlast)

/-- A goroutine that was no good for its peer moves on, and whoever else saw to the peer still does. -/
theorem Diligent.attends_rephased {send : Send} {phase : SendPhase} (hsend : send ∈ sv.sends) (hpeer : send.peer = p)
    (hidle : ¬send.phase.Serves sv.node) (hmarks : sv.node.SameMarks after.node) (hmain : after.main = sv.main)
    (hsends : after.sends = NodeProcess.setPhase sv.sends send.handle phase)
    (hnotifying : after.notifying = sv.notifying) (hattends : sv.Attends p) : after.Attends p := by
  refine hattends.mono hmarks.notify hnotifying (fun hpending => ?_) (fun hp => hmain ▸ hp) (fun hp => ?_) ?_
  · rw [hmarks.pending]
    exact hpending
  · rw [hsends, map_setPhase Send.peer fun _ _ => rfl]
    exact hp
  · intro other hother hpeer' hserves
    rw [h.slots.eq_of_peer hsend hother (hpeer'.trans hpeer.symm)] at hserves
    exact absurd hserves hidle

/-- A goroutine gives its flag back. If the peer was marked as pending, the goroutine has still to notify. -/
theorem Diligent.finished {send : Send} (hsend : send ∈ sv.sends) (hphase : send.phase = .finishing) :
    (onDisk sv.disk (sv.stepFinish send)).1.Diligent failed p := by
  have hothers : ∀ other ∈ sv.sends, other.peer ≠ send.peer → other ∈ (sv.stepFinish send).1.sends := by
    intro other hother hne
    refine List.mem_filter.mpr ⟨hother, decide_eq_true fun hhandle => hne ?_⟩
    rw [h.slots.eq_of_handle hsend hother hhandle]
  have hgone : send.peer ∉ (sv.stepFinish send).1.sends.map Send.peer := by
    intro hmem
    obtain ⟨other, hother, hpeer⟩ := List.mem_map.mp hmem
    obtain ⟨hold, hhandle⟩ := List.mem_filter.mp hother
    rw [h.slots.eq_of_peer hsend hold hpeer] at hhandle
    exact of_decide_eq_true hhandle rfl
  have hsub : (sv.stepFinish send).1.sends.Sublist sv.sends := List.filter_sublist
  have hnotifying : ∀ p, sv.node.replicatePending p = true → p = send.peer →
      0 < (sv.stepFinish send).1.notifying := by
    rintro _ hmark rfl
    have hnotify : (sv.node.releaseFlight send.peer).2 = true := hmark
    simp only [NodeProcess.stepFinish, hnotify, if_true]
    exact Nat.succ_pos _
  refine ⟨⟨h.slots.peers.sublist (hsub.map _), h.slots.handles.sublist (hsub.map _), fun q => ?_⟩, ?_⟩
  · change Function.update sv.node.replicateInFlight send.peer false q = true ↔ _
    by_cases hq : q = send.peer
    · rw [hq, Function.update_self]
      exact iff_of_false (fun h => by cases h) hgone
    · rw [Function.update_of_ne hq, h.slots.flags q]
      refine ⟨fun hmem => ?_, fun hmem => (hsub.map _).subset hmem⟩
      obtain ⟨other, hother, rfl⟩ := List.mem_map.mp hmem
      exact List.mem_map_of_mem (hothers other hother hq)
  · intro hleads hlacks
    refine (h.prompt hleads hlacks).imp_right fun hattends => ?_
    cases hattends with
    | notified hwake => exact .notified hwake
    | notifying hpositive =>
      refine .notifying ?_
      change 0 < if (sv.node.releaseFlight send.peer).2 = true then sv.notifying + 1 else sv.notifying
      split <;> omega
    | ahead hp => exact .ahead hp
    | pending hmark hmem =>
      by_cases hp : p = send.peer
      · exact .notifying (hnotifying p hmark hp)
      · obtain ⟨other, hother, rfl⟩ := List.mem_map.mp hmem
        exact .pending ((Function.update_of_ne hp ..).trans hmark) (List.mem_map_of_mem (hothers other hother hp))
    | @served other hother hpeer hserves =>
      by_cases hp : other.peer = send.peer
      · rw [h.slots.eq_of_peer hsend hother hp, hphase] at hserves
        exact hserves.elim
      · exact .served (hothers other hother hp) hpeer (hserves.congr rfl rfl)

end Changes

section Moves

variable {fresh : ℕ} {fates : List Fate} (h : sv.Diligent failed p)
include h

/-- A leader's visit to a peer. -/
theorem Diligent.visit {q : String} {todo : List String} (hfresh : ∀ send ∈ sv.sends, send.handle ≠ fresh)
    (hmain : sv.main = .leading todo) : (sv.carryOut fates (sv.planVisit fresh q todo)).1.Diligent failed p := by
  have htodo : p ∈ sv.main.todo → p ∈ todo := fun hp => by rwa [hmain] at hp
  have hahead : p ∈ sv.main.todo → p ∈ q :: todo.erase q := by
    intro hp
    by_cases hpq : p = q
    · exact hpq ▸ List.mem_cons_self
    · exact List.mem_cons_of_mem _ ((List.mem_erase_of_ne hpq).mpr (htodo hp))
  refine Diligent.perform (Q := fun r => (r.1 = sv.node ∧ r.2 = none ∧ sv.node.role ≠ .leader) ∨
    (r.1 = sv.node ∧ r.2 = some none) ∨
    (r.1 = sv.node.postponed q ∧ r.2 = some none ∧ sv.node.replicateInFlight q = true) ∨
    ∃ snap, sv.node.replicateInFlight q = false ∧
      r = (sv.node.sending q, some (some (sv.node.snapshotRequest snap)))) ?_ ?_
  · exact Node.installSnapshotRequestForPeer_rule (fun _ _ => trivial) (fun hrole => Or.inl ⟨rfl, rfl, hrole⟩)
      (fun _ _ => Or.inr (Or.inl ⟨rfl, rfl⟩)) (fun _ hbusy => Or.inr (Or.inr (Or.inl ⟨rfl, rfl, hbusy⟩)))
      fun _ hidle _ snap _ => Or.inr (Or.inr (Or.inr ⟨snap, hidle, rfl⟩))
  · rintro ⟨node, answer⟩ disk (⟨rfl, rfl, hrole⟩ | ⟨rfl, rfl⟩ | ⟨rfl, rfl, hbusy⟩ | ⟨snap, hidle, hresult⟩)
    · exact h.abides (.refl _) (fun hleads => absurd hleads hrole) rfl rfl
    · exact h.abides (.refl _) (fun _ => hahead) rfl rfl
    · exact h.postponed hbusy rfl (fun _ => hahead) rfl rfl
    · cases hresult
      exact h.started hfresh hidle rfl (fun hpq hp => (List.mem_erase_of_ne hpq).mpr (htodo hp)) rfl rfl fun _ => rfl

/-- A leader's turn for entries. -/
theorem Diligent.appendTurn {q : String} {todo : List String} (hfresh : ∀ send ∈ sv.sends, send.handle ≠ fresh)
    (hmain : sv.main = .appending q todo) : (sv.carryOut fates (sv.planAppendTurn fresh q todo)).1.Diligent failed p := by
  have hahead : p ≠ q → p ∈ sv.main.todo → p ∈ todo := by
    intro hpq hp
    rw [hmain] at hp
    exact (List.mem_cons.mp hp).resolve_left hpq
  refine Diligent.perform (Q := fun r => (r.1 = sv.node ∧ r.2 = none ∧ sv.node.role ≠ .leader) ∨
    (r.1 = sv.node.postponed q ∧ r.2 = some none ∧ sv.node.replicateInFlight q = true) ∨
    ∃ req, sv.node.replicateInFlight q = false ∧
      sv.node.appendEntriesRequest (max 1 (sv.node.nextIndex q)) = some req ∧
      r = (sv.node.sending q, some (some req))) ?_ ?_
  · exact Node.appendEntriesRequestForPeer_rule (fun _ _ _ => trivial) (fun hrole => Or.inl ⟨rfl, rfl, hrole⟩)
      (fun _ hbusy => Or.inr (Or.inl ⟨rfl, rfl, hbusy⟩))
      fun _ hidle req hreq => Or.inr (Or.inr ⟨req, hidle, hreq, rfl⟩)
  · rintro ⟨node, answer⟩ disk (⟨rfl, rfl, hrole⟩ | ⟨rfl, rfl, hbusy⟩ | ⟨req, hidle, hreq, hresult⟩)
    · exact h.abides (.refl _) (fun hleads => absurd hleads hrole) rfl rfl
    · exact h.postponed hbusy rfl hahead rfl rfl
    · cases hresult
      exact h.started hfresh hidle rfl hahead rfl rfl fun _ => Node.serves_appendEntriesRequest hreq

/-- Reading a response to entries. -/
theorem Diligent.appendAnswered {send : Send} {req : AppendEntriesRequest} (hsend : send ∈ sv.sends)
    (hphase : send.phase = .waitingAppend req) (resp : AppendEntriesResponse) :
    (sv.carryOut fates (sv.planAppendAnswered send req resp)).1.Diligent failed p := by
  refine Diligent.perform (Q := fun r => sv.node.Abides p r.1 ∧
      (r.1.role = .leader → r.1 = sv.node ∧ req.term ≠ sv.node.currentTerm) ∨
    r = (sv.node.backedOff send.peer resp, { apply := false, replicate := true }) ∨
    (sv.node.recordProgress send.peer req.lastIndex).Abides p r.1) ?_ ?_
  · refine Node.handleAppendEntriesResponse_rule (fun _ => Node.stepDown_rule (fun _ => ⟨trivial, Or.inl ?_⟩)
      (Or.inl ?_)) (fun _ hstale => Or.inl ⟨.refl _, fun hleads => ⟨rfl, hstale.resolve_left (not_not.mpr hleads)⟩⟩)
      (fun _ _ _ _ => Or.inr (Or.inl rfl)) fun _ _ _ _ =>
        (abides_advanceCommitIndex _).mono (fun _ h => h) fun _ _ hmoved => Or.inr (Or.inr hmoved)
    · exact ⟨.follower ⟨rfl, rfl, id⟩ rfl, fun hleads => by cases hleads⟩
    · exact ⟨.follower ⟨rfl, rfl, id⟩ rfl, fun hleads => by cases hleads⟩
  · rintro ⟨node, signals⟩ disk (⟨hnode, hstale⟩ | hrejected | hnode)
    · refine h.rephased hnode.toSameMarks (fun _ => hnode) rfl rfl rfl fun own hown hhandle hpeer hleads hlacks => ?_
      rw [h.slots.eq_of_handle hsend hown hhandle] at hpeer
      obtain ⟨rfl, hterm⟩ := hstale hleads
      refine (h.prompt hleads hlacks).imp_right (h.attends_rephased hsend hpeer (fun hserves => ?_) (.refl _) rfl rfl rfl)
      rw [hphase] at hserves
      exact hterm hserves.1
    · cases hrejected
      refine h.rephased ⟨rfl, rfl, id⟩ (fun hother => ?_) rfl rfl rfl fun own hown hhandle hpeer _ _ => ?_
      · exact ⟨⟨rfl, rfl, id⟩, fun hleads =>
          ⟨hleads, rfl, rfl, Function.update_of_ne (hother send hsend rfl).symm ..⟩⟩
      · rw [h.slots.eq_of_handle hsend hown hhandle] at hpeer
        exact Or.inr (.served (mem_setPhase_self hsend _) hpeer rfl)
    · refine h.rephased ⟨hnode.inFlight, hnode.pending, hnode.notify⟩ (fun hother => ?_) rfl rfl rfl
        fun own hown hhandle hpeer hleads hlacks => ?_
      · refine ⟨⟨hnode.inFlight, hnode.pending, hnode.notify⟩, fun hleads => ?_⟩
        obtain ⟨hleads₀, hterm, hlast, hnext⟩ := hnode.office hleads
        exact ⟨hleads₀, hterm, hlast, hnext.trans (Function.update_of_ne (hother send hsend rfl).symm ..)⟩
      · rw [h.slots.eq_of_handle hsend hown hhandle] at hpeer
        obtain ⟨hleads₀, _, hlast, hnext⟩ := hnode.office hleads
        have hreached : (sv.node.recordProgress send.peer req.lastIndex).nextIndex p =
            max (sv.node.nextIndex p) (req.lastIndex + 1) := by
          rw [← hpeer]
          exact Function.update_self ..
        change node.nextIndex p ≤ node.lastLogIndex at hlacks
        change node.lastLogIndex = sv.node.lastLogIndex at hlast
        change node.nextIndex p = _ at hnext
        refine (h.prompt hleads₀ (by omega)).imp_right
          (h.attends_rephased hsend hpeer (fun hserves => ?_) ⟨hnode.inFlight, hnode.pending, hnode.notify⟩ rfl rfl rfl)
        -- an accepted request that carries the whole log leaves nothing to send
        rw [hphase] at hserves
        have := hserves.2
        omega

/-- Reading a response to a snapshot. -/
theorem Diligent.installAnswered {send : Send} {req : InstallSnapshotRequest} (hsend : send ∈ sv.sends)
    (hphase : send.phase = .waitingInstall req) (resp : InstallSnapshotResponse) :
    (sv.carryOut fates (sv.planInstallAnswered send req resp)).1.Diligent failed p := by
  refine Diligent.perform (Q := fun node => sv.node.Abides p node ∧
      (node.role = .leader → node = sv.node ∧ req.term ≠ sv.node.currentTerm) ∨
    node = (sv.node.recordProgress send.peer req.lastIncludedIndex).signalReplicate) ?_ ?_
  · refine Node.handleInstallSnapshotResponse_rule (fun _ => Node.stepDown_rule (fun _ => ⟨trivial, Or.inl ?_⟩)
      (Or.inl ?_)) (fun _ hstale => Or.inl ⟨.refl _, fun hleads => ⟨rfl, hstale.resolve_left (not_not.mpr hleads)⟩⟩)
      fun _ _ _ => Or.inr rfl
    · exact ⟨.follower ⟨rfl, rfl, id⟩ rfl, fun hleads => by cases hleads⟩
    · exact ⟨.follower ⟨rfl, rfl, id⟩ rfl, fun hleads => by cases hleads⟩
  · rintro node disk (⟨hnode, hstale⟩ | rfl)
    · refine h.rephased hnode.toSameMarks (fun _ => hnode) rfl rfl rfl fun own hown hhandle hpeer hleads hlacks => ?_
      rw [h.slots.eq_of_handle hsend hown hhandle] at hpeer
      obtain ⟨rfl, hterm⟩ := hstale hleads
      refine (h.prompt hleads hlacks).imp_right (h.attends_rephased hsend hpeer (fun hserves => ?_) (.refl _) rfl rfl rfl)
      rw [hphase] at hserves
      exact hterm hserves
    · refine h.rephased ⟨rfl, rfl, fun _ => rfl⟩ (fun hother => ?_) rfl rfl rfl
        fun _ _ _ _ _ _ => Or.inr (.notified rfl)
      exact ⟨⟨rfl, rfl, fun _ => rfl⟩, fun hleads =>
        ⟨hleads, rfl, rfl, Function.update_of_ne (hother send hsend rfl).symm ..⟩⟩

/-- A goroutine signals. -/
theorem Diligent.signal {send : Send} {signals : Node.Signals} (hsend : send ∈ sv.sends)
    (hphase : send.phase = .signalling signals) :
    (onDisk sv.disk (sv.stepSignal send signals)).1.Diligent failed p := by
  have hnode : sv.node.Abides p (sv.stepSignal send signals).1.node := by
    simp only [NodeProcess.stepSignal]
    split <;> split
    · exact .same ⟨rfl, rfl, fun _ => rfl⟩ rfl rfl rfl rfl
    · exact .same ⟨rfl, rfl, fun _ => rfl⟩ rfl rfl rfl rfl
    · exact .same ⟨rfl, rfl, id⟩ rfl rfl rfl rfl
    · exact .refl _
  refine h.rephased hnode.toSameMarks (fun _ => hnode) rfl rfl rfl fun own hown hhandle hpeer hleads hlacks => ?_
  rw [h.slots.eq_of_handle hsend hown hhandle] at hpeer
  cases hreplicate : signals.replicate with
  | true =>
    refine Or.inr (.notified ?_)
    simp only [onDisk, NodeProcess.stepSignal, hreplicate]
    rfl
  | false =>
    obtain ⟨hleads₀, _, hlast, hnext⟩ := hnode.office hleads
    change (sv.stepSignal send signals).1.node.nextIndex p ≤ (sv.stepSignal send signals).1.node.lastLogIndex at hlacks
    rw [hnext, hlast] at hlacks
    refine (h.prompt hleads₀ hlacks).imp_right
      (h.attends_rephased hsend hpeer (fun hserves => ?_) hnode.toSameMarks rfl rfl rfl)
    rw [hphase] at hserves
    cases hreplicate.symm.trans hserves

/-- A handler serves a request. -/
theorem Diligent.receive (req : Request) : (sv.carryOut fates (sv.planReceive req)).1.Diligent failed p := by
  have hhandled : ∀ {R : Type} (wrap : R → Reply) (r : Node × Except RaftError R) disk,
      sv.node.Abides p r.1 → (Server.onDisk disk (sv.handled wrap r)).1.Diligent failed p := by
    intro R wrap r disk hnode
    obtain ⟨node, _ | _⟩ := r <;> exact h.abides hnode (fun _ hp => hp) rfl rfl
  cases req with
  | vote req => exact .perform (abides_handleRequestVote sv.node req) (hhandled _)
  | append req => exact .perform (abides_handleAppendEntries sv.node req) (hhandled _)
  | install req => exact .perform (abides_handleInstallSnapshot sv.node req) (hhandled _)

/-- Every step keeps the marks exact and forgets no peer, as long as leaders do not campaign. -/
theorem Diligent.step {input : Input} {result : Server × Effects} (hmove : sv.Move fresh fates input result)
    (hseated : sv.Seated) (hfresh : ∀ send ∈ sv.sends, send.handle ≠ fresh) (hpeer : p ∈ sv.node.peers)
    (hfailed : ∀ send ∈ sv.sends, input = .callFailed send.handle → send.peer = p → failed) :
    result.1.Diligent failed p := by
  have hsame : ∀ {after : Server}, sv.node.Abides p after.node → after.main = sv.main → after.sends = sv.sends →
      after.notifying = sv.notifying → after.Diligent failed p :=
    fun hnode hmain => h.abides hnode fun _ hp => hmain ▸ hp
  -- outside of `runLeader` there is no round
  have houtside : ∀ {after : Server}, sv.main.todo = [] → sv.node.Abides p after.node → after.sends = sv.sends →
      after.notifying = sv.notifying → after.Diligent failed p := by
    intro after htodo hnode
    refine h.abides hnode fun _ hp => ?_
    rw [htodo] at hp
    cases hp
  cases hmove with
  | restart => exact .boot ..
  | dispatch hmain =>
    have hloop : ∀ main, ({ sv with main := main } : Server).Diligent failed p :=
      fun _ => houtside (by rw [hmain]; rfl) (.refl _) rfl rfl
    simp only [NodeProcess.dispatch]
    split
    · exact hloop _
    · split <;> exact hloop _
  | electionReset | wakeApply | recordSnapshot | drain =>
    exact hsame (.same ⟨rfl, rfl, id⟩ rfl rfl rfl rfl) rfl rfl rfl
  | sendSnapshot | sendEntry => exact hsame (.refl _) rfl rfl rfl
  | electionTimeout hmain =>
    exact houtside (by rw [hmain]; rfl) (.unseated ⟨rfl, rfl, id⟩ fun hleads => by cases hleads) rfl rfl
  | startElection hmain =>
    have hrole : sv.node.role ≠ .leader := by
      intro hleads
      have hloop := hseated hleads
      rw [hmain] at hloop
      cases hloop
    exact .perform (abides_startElection hrole) fun r _ hr => houtside (by rw [hmain]; rfl) hr rfl rfl
  | openPoll hmain => exact houtside (by rw [hmain]; rfl) (.refl _) rfl rfl
  | voteAnswered hmain =>
    refine .perform (abides_handleVoteResponse (p := p) sv.node _ _ _) ?_
    rintro ⟨node, votes⟩ disk (hnode | hwon)
    · exact houtside (by rw [hmain]; rfl) hnode rfl rfl
    · obtain rfl : node = sv.node.becomeLeader := hwon
      refine ⟨h.slots_same rfl rfl, fun _ hlacks => ?_⟩
      -- a new leader takes everybody to have its whole log
      have hnext : sv.node.becomeLeader.nextIndex p = sv.node.lastLogIndex + 1 := if_pos (Or.inr hpeer)
      change sv.node.becomeLeader.nextIndex p ≤ sv.node.lastLogIndex at hlacks
      omega
  | pollTimeout hmain => exact houtside (by rw [hmain]; rfl) (.refl _) rfl rfl
  | startRoundNotified | startRound => exact ⟨h.slots_same rfl rfl, fun _ _ => Or.inr (.ahead hpeer)⟩
  | visit hmain => exact h.visit hfresh hmain
  | appendTurn hmain => exact h.appendTurn hfresh hmain
  | appendAnswered hsend hphase => exact h.appendAnswered hsend hphase _
  | installAnswered hsend hphase => exact h.installAnswered hsend hphase _
  | callFailed handle =>
    refine h.rephased (.refl _) (fun _ => .refl _) rfl rfl rfl fun send hsend hhandle hp _ _ => Or.inl ?_
    exact hfailed send hsend (by rw [hhandle]) hp
  | signal hsend hphase => exact h.signal hsend hphase
  | finish hsend hphase => exact h.finished hsend hphase
  | notify => exact h.notified ⟨rfl, rfl, fun _ => rfl⟩ rfl rfl
  | receive req => exact h.receive req
  | startCommand cmd =>
    refine .perform (abides_startCommand (p := p) sv.node cmd) ?_
    rintro ⟨node, index⟩ disk (hnode | ⟨hmarks, hnotify⟩)
    · exact hsame hnode rfl rfl rfl
    · exact h.notified hmarks hnotify rfl
  | takeSnapshot index data =>
    refine .perform (abides_takeSnapshot (p := p) sv.node index data) fun r _ hnode => ?_
    obtain ⟨node, _ | _⟩ := r <;> exact hsame hnode rfl rfl rfl
  | pickEntry => exact .perform (abides_nextToApply (p := p) sv.node) fun r _ hnode => hsame hnode rfl rfl rfl

end Moves

end Server

/-! ## Runs of a cluster -/

/-- A goroutine was there before or is the one of a new call. -/
theorem Server.Move.handles {fresh : ℕ} {fates : List Fate} {input : Input} {result : Server × Effects}
    (hmove : sv.Move fresh fates input result) {send : Send} (hsend : send ∈ result.1.sends) :
    send.handle ∈ sv.sends.map Send.handle ∨ (send.handle = fresh ∧ result.2.calls ≠ []) := by
  have hperform : ∀ {A : Type} {s : Section A} {next : A → PersistentState → Server × Effects},
      (∀ r disk, ∀ send ∈ (next r disk).1.sends,
        send.handle ∈ sv.sends.map Send.handle ∨ (send.handle = fresh ∧ (next r disk).2.calls ≠ [])) →
      send ∈ (sv.perform fates s next).1.sends → send.handle ∈ sv.sends.map Send.handle ∨
        (send.handle = fresh ∧ (sv.perform fates s next).2.calls ≠ []) := by
    intro A s next hnext hsend
    rcases sv.perform_cases fates s next with ⟨r, disk, heq⟩ | ⟨b, disk, heq⟩
    · rw [heq] at hsend ⊢
      exact hnext r disk send hsend
    · rw [heq] at hsend
      cases hsend
  have hrephased : ∀ {handle : ℕ} {phase : SendPhase}, ∀ send ∈ NodeProcess.setPhase sv.sends handle phase,
      send.handle ∈ sv.sends.map Send.handle := by
    intro handle phase send hsend
    rw [← Server.map_setPhase Send.handle (fun _ _ => rfl) sv.sends handle phase]
    exact List.mem_map_of_mem hsend
  have hold : ∀ send ∈ sv.sends, send.handle ∈ sv.sends.map Send.handle := fun _ => List.mem_map_of_mem
  cases hmove with
  | restart => cases hsend
  | dispatch =>
    simp only [Server.onDisk, NodeProcess.dispatch] at hsend
    split at hsend
    · exact Or.inl (hold send hsend)
    · split at hsend <;> exact Or.inl (hold send hsend)
  | electionReset | electionTimeout | openPoll | pollTimeout | startRoundNotified | startRound | notify | wakeApply
  | drain | sendSnapshot | recordSnapshot | sendEntry => exact Or.inl (hold send hsend)
  | startElection | voteAnswered | startCommand | pickEntry =>
    exact hperform (fun _ _ other hother => Or.inl (hold other hother)) hsend
  | takeSnapshot =>
    refine hperform (fun r _ other hother => ?_) hsend
    obtain ⟨_, _ | _⟩ := r <;> exact Or.inl (hold other hother)
  | receive req =>
    cases req <;>
    · refine hperform (fun r _ other hother => ?_) hsend
      obtain ⟨_, _ | _⟩ := r <;> exact Or.inl (hold other hother)
  | visit | appendTurn =>
    refine hperform (fun r _ other hother => ?_) hsend
    obtain ⟨_, _ | _ | req⟩ := r
    · exact Or.inl (hold other hother)
    · exact Or.inl (hold other hother)
    · rcases List.mem_cons.mp hother with rfl | hother
      · exact Or.inr ⟨rfl, List.cons_ne_nil _ _⟩
      · exact Or.inl (hold other hother)
  | appendAnswered | installAnswered => exact hperform (fun _ _ other hother => Or.inl (hrephased other hother)) hsend
  | callFailed | signal => exact Or.inl (hrephased send hsend)
  | finish => exact Or.inl (hold send (List.mem_of_mem_filter hsend))

/-- A call of the member to the peer has failed. -/
def Cluster.CallFailed (c : Cluster) (id p : String) : Prop :=
  ∃ tr ∈ c.trace, tr.id = id ∧ ∃ send ∈ tr.before.sends, tr.input = .callFailed send.handle ∧ send.peer = p

instance (c : Cluster) (id p : String) : Decidable (c.CallFailed id p) :=
  inferInstanceAs (Decidable (∃ tr ∈ c.trace, tr.id = id ∧
    ∃ send ∈ tr.before.sends, tr.input = .callFailed send.handle ∧ send.peer = p))

/-- What holds of the replication to all peers throughout a run. -/
structure Cluster.Tended (m : Membership) (c : Cluster) : Prop where
  seated : ∀ id ∈ m.ids, (c.servers id).Seated
  older : ∀ id ∈ m.ids, ∀ send ∈ (c.servers id).sends, send.handle < c.calls.length
  diligent : ∀ id ∈ m.ids, ∀ q ∈ m.ids, q ≠ id → (c.servers id).Diligent (c.CallFailed id q) q

/-- What has failed once has failed for good. -/
theorem Server.Diligent.mono {failed' : Prop} (h : sv.Diligent failed p) (himp : failed → failed') :
    sv.Diligent failed' p :=
  ⟨h.slots, fun hleads hlacks => (h.prompt hleads hlacks).imp_left himp⟩

variable {m : Membership} {c c' : Cluster} {id : String}

/-- Every step of a cluster forgets no peer. -/
theorem Cluster.Tended.step (h : c.Tended m) (hwired : Wired m c) {a : Action} (hstep : c.step m.ids a = some c') :
    c'.Tended m := by
  obtain ⟨mover, input, served, after, effects, hsource, hmove, rfl⟩ := Cluster.step_cases hstep
  have hmover := (hwired.source hsource).1
  have hgrown : ∀ {id q}, c.CallFailed id q → (c.record mover input served after effects).CallFailed id q := by
    intro id q ⟨tr, htr, hfailed⟩
    exact ⟨tr, List.mem_cons_of_mem _ htr, hfailed⟩
  refine ⟨fun id hid => ?_, fun id hid send hsend => ?_, fun id hid q hq hne => ?_⟩
  · by_cases hother : id = mover
    · subst hother
      rw [Cluster.record_servers_self]
      exact ((h.seated id hid).step hmove).seated
    · rw [Cluster.record_servers_of_ne _ _ _ _ _ hother]
      exact h.seated id hid
  · change send.handle < (c.calls ++ _).length
    rw [List.length_append, List.length_map]
    by_cases hother : id = mover
    · subst hother
      rw [Cluster.record_servers_self] at hsend
      rcases hmove.handles hsend with hold | ⟨hfresh, hcalls⟩
      · obtain ⟨old, hold, heq⟩ := List.mem_map.mp hold
        have := h.older id hid old hold
        omega
      · have : 0 < effects.calls.length := List.length_pos_iff.mpr hcalls
        omega
    · rw [Cluster.record_servers_of_ne _ _ _ _ _ hother] at hsend
      have := h.older id hid send hsend
      omega
  · by_cases hother : id = mover
    · subst hother
      rw [Cluster.record_servers_self]
      have hplaced := (hwired.servers id hid).placed
      refine ((h.diligent id hid q hq hne).mono hgrown).step hmove (h.seated id hid)
        (fun send hsend => Nat.ne_of_lt (h.older id hid send hsend)) ?_ ?_
      · rw [hplaced.peers]
        exact Membership.mem_peers.mpr ⟨hq, hne⟩
      · intro send hsend hinput hpeer
        exact ⟨_, List.mem_cons_self, rfl, send, hsend, hinput, hpeer⟩
    · rw [Cluster.record_servers_of_ne _ _ _ _ _ hother]
      exact (h.diligent id hid q hq hne).mono hgrown

/-- In no run of a cluster is a peer forgotten. -/
theorem tended_of_reachable {allowed : Cluster → Action → Prop} (run : ClusterReachable m allowed c) : c.Tended m := by
  refine run.invariant ?_ ?_
  · intro c hfirst
    cases hfirst
    refine ⟨fun id _ hleads => ?_, fun id _ send hsend => ?_, fun id _ q _ _ => .boot id m.ids .empty⟩
    · cases (newNode_role id m.ids .empty).symm.trans hleads
    · cases hsend
  · intro c c' run h ⟨a, _, hstep⟩
    exact h.step (wired_of_reachable run) hstep

/-- **A leader forgets no peer.** In every run of a cluster, whatever becomes of messages and storage calls: a member
marks a peer as in flight exactly while one goroutine, and never more than one, is busy with a call to it. And if a
leader waits between two rounds without a notification while a peer lacks some of its log, then a goroutine at its end
is about to notify it, or one is busy with a call to this peer and the peer is marked as pending, or the call carries
all that the leader has or a snapshot, in the leader's term, or the goroutine is about to notify; unless a call to this
peer has failed before. -/
theorem leaders_forget_no_peer {allowed : Cluster → Action → Prop} (run : ClusterReachable m allowed c)
    (hid : id ∈ m.ids) (hp : p ∈ m.ids) (hne : p ≠ id) :
    ((c.servers id).node.replicateInFlight p = true ↔ ∃ send ∈ (c.servers id).sends, send.peer = p) ∧
    (∀ send ∈ (c.servers id).sends, ∀ other ∈ (c.servers id).sends, other.peer = send.peer → other = send) ∧
    ((c.servers id).node.role = .leader → (c.servers id).main = .leading [] →
      (c.servers id).node.replicateNotify = false →
      (c.servers id).node.nextIndex p ≤ (c.servers id).node.lastLogIndex →
      c.CallFailed id p ∨ 0 < (c.servers id).notifying ∨ ∃ send ∈ (c.servers id).sends, send.peer = p ∧
        ((c.servers id).node.replicatePending p = true ∨ send.phase.Serves (c.servers id).node)) := by
  have h := (tended_of_reachable run).diligent id hid p hp hne
  refine ⟨?_, fun send hsend other hother => h.slots.eq_of_peer hsend hother, fun hleads hmain hquiet hlacks => ?_⟩
  · rw [h.slots.flags p, List.mem_map]
  · refine (h.prompt hleads hlacks).imp_right fun hattends => ?_
    cases hattends with
    | notified hnotify => cases hquiet.symm.trans hnotify
    | notifying hnotifying => exact Or.inl hnotifying
    | ahead hahead =>
      rw [hmain] at hahead
      cases hahead
    | pending hmark hsend =>
      obtain ⟨send, hsend, hpeer⟩ := List.mem_map.mp hsend
      exact Or.inr ⟨send, hsend, hpeer, Or.inl hmark⟩
    | served hsend hpeer hphase => exact Or.inr ⟨_, hsend, hpeer, Or.inr hphase⟩

/-- A leader that gets a second command while its first calls are under way. -/
theorem leaders_forget_no_peer_with_calls_under_way :
    ∃ c, ClusterReachable threeNodes Undisturbed c ∧ (c.servers "a").node.role = .leader ∧
      (c.servers "a").main = .leading [] ∧ (c.servers "a").node.replicateNotify = false ∧
      (c.servers "a").node.nextIndex "b" ≤ (c.servers "a").node.lastLogIndex ∧
      (c.CallFailed "a" "b" ∨ 0 < (c.servers "a").notifying ∨ ∃ send ∈ (c.servers "a").sends, send.peer = "b" ∧
        ((c.servers "a").node.replicatePending "b" = true ∨ send.phase.Serves (c.servers "a").node)) := by
  have hrun : ((Cluster.first threeNodes.ids).run threeNodes Undisturbed
      (electionOf "a" 0 1 ++ [.act "a" (.startCommand [7]) [], .act "a" (.startRound true) [],
        .act "a" (.visit "b") [], .act "a" .appendTurn [], .act "a" (.visit "c") [], .act "a" .appendTurn [],
        .act "a" (.startCommand [8]) [], .act "a" (.startRound true) [],
        .act "a" (.visit "b") [], .act "a" .appendTurn [], .act "a" (.visit "c") [], .act "a" .appendTurn []])).map
      (fun c => ((c.servers "a").node.role, (c.servers "a").main, (c.servers "a").node.replicateNotify,
        decide ((c.servers "a").node.nextIndex "b" ≤ (c.servers "a").node.lastLogIndex))) =
      some (.leader, .leading [], false, true) := by
    decide +kernel
  obtain ⟨c, run, hfacts⟩ := exists_reachable_of_run hrun
  simp only [Prod.mk.injEq] at hfacts
  obtain ⟨hleads, hmain, hquiet, hlacks⟩ := hfacts
  have hlacks := of_decide_eq_true hlacks
  exact ⟨c, run, hleads, hmain, hquiet, hlacks,
    (leaders_forget_no_peer run (by decide) (by decide) (by decide)).2.2 hleads hmain hquiet hlacks⟩

end ConsensusLab.Raft
