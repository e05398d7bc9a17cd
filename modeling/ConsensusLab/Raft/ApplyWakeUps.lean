import ConsensusLab.Raft.AcceptedEntries
import ConsensusLab.Raft.Bookkeeping
import ConsensusLab.Raft.ServerRuns
import ConsensusLab.Raft.StateMachineSafety

/-!
# The apply loop does not sleep on work

The apply loop waits for a token in a channel that holds at most one. Whoever leaves it a
snapshot or moves the commit index puts a token there, some of them only after they have
released the mutex. The loop takes the token before it looks for work, and looks for
snapshots before entries, so that whatever comes too late for its look comes with a token
for the next one.

The loop also stops where the log ends. That committed entries stay in the log until they
are applied is up to the leaders: a request that replaces entries and ends below the commit
index cuts the log there, and the loop then waits although it has not applied everything
that is committed. Leaders of a cluster do not send such requests.
-/

namespace ConsensusLab.Raft

open Foundation

/-- A goroutine in this phase is about to notify the apply loop. -/
def SendPhase.signalsApply : SendPhase → Bool
  | signalling signals => signals.apply
  | waitingAppend _ | waitingInstall _ | finishing => false

/-- Some goroutine has moved the commit index and is yet to notify the apply loop. -/
def Signalling (sends : List Send) : Prop :=
  ∃ send ∈ sends, send.phase.signalsApply = true

instance (sends : List Send) : Decidable (Signalling sends) :=
  inferInstanceAs (Decidable (∃ send ∈ sends, _))

/-- The apply loop waits for a token, there is none, and nobody is about to leave one. -/
def Server.Asleep (sv : Server) : Prop :=
  sv.applier = .parked ∧ sv.node.applyNotify = false ∧ ¬Signalling sv.sends

instance (sv : Server) : Decidable sv.Asleep :=
  inferInstanceAs (Decidable (_ ∧ _ ∧ _))

/-- There is nothing to apply. -/
def Node.Applied (n : Node) : Prop :=
  n.pendingSnapshot = none ∧ n.commitIndex ≤ n.lastApplied

instance (n : Node) : Decidable n.Applied :=
  inferInstanceAs (Decidable (_ ∧ _))

namespace Node

/-- The request has an entry of another term than the one that the node has in its place. -/
def Conflicts (n : Node) (req : AppendEntriesRequest) : Prop :=
  ∃ j : Fin req.entries.length, ∃ own ∈ n.entryAt (req.prevLogIndex + 1 + j), own.term ≠ (req.entries.get j).term

/-- The request takes committed entries away from the apply loop: it is accepted, replaces entries and ends below the
commit index, which it does not move, and the loop has not come that far. -/
def CutsShort (n : Node) (req : AppendEntriesRequest) : Prop :=
  n.degraded = false ∧ n.currentTerm ≤ req.term ∧ n.PrevMatches req ∧ n.Conflicts req ∧
    req.leaderCommit ≤ n.commitIndex ∧ max (req.prevLogIndex + req.entries.length) n.lastApplied < n.commitIndex

/-- What is committed is in the log or applied. -/
def WithinReach (n : Node) : Prop :=
  n.commitIndex ≤ max n.lastLogIndex n.lastApplied

instance (n : Node) (req : AppendEntriesRequest) : Decidable (n.Conflicts req) :=
  inferInstanceAs (Decidable (∃ _, _))

instance (n : Node) (req : AppendEntriesRequest) : Decidable (n.PrevMatches req) :=
  decidable_of_iff (req.prevLogIndex ≤ n.lastLogIndex ∧
      (n.snapshotIndex < req.prevLogIndex → ∃ own ∈ n.entryAt req.prevLogIndex, own.term = req.prevLogTerm) ∧
      (req.prevLogIndex = n.snapshotIndex → req.prevLogTerm = n.snapshotTerm))
    ⟨fun h => ⟨h.1, h.2.1, h.2.2⟩, fun h => ⟨h.reached, h.entry, h.boundary⟩⟩

instance (n : Node) (req : AppendEntriesRequest) : Decidable (n.CutsShort req) :=
  inferInstanceAs (Decidable (_ ∧ _ ∧ _ ∧ _ ∧ _ ∧ _))

/-- What a section does that is not one of the apply loop's: new work comes with a token, or with a goroutine
that is to leave one `later`. What is committed stays within reach if the section is `safe`. -/
structure Announces (safe : Prop) (n n' : Node) (later : Bool) : Prop where
  token : n.applyNotify = true → n'.applyNotify = true
  pending : n'.pendingSnapshot = n.pendingSnapshot ∨ n'.applyNotify = true
  commit : n'.commitIndex = n.commitIndex ∨ n'.applyNotify = true ∨ later = true
  applied : n'.lastApplied = n.lastApplied
  reach : safe → n.WithinReach → n'.WithinReach

variable {n n' : Node} {safe : Prop} {later : Bool} {d : PersistentState}

section Sections

/-- A section that leaves the apply loop nothing. -/
theorem Announces.same (htoken : n'.applyNotify = n.applyNotify) (hpending : n'.pendingSnapshot = n.pendingSnapshot)
    (hcommit : n'.commitIndex = n.commitIndex) (happlied : n'.lastApplied = n.lastApplied)
    (hlast : n'.lastLogIndex = n.lastLogIndex) : Announces safe n n' later where
  token h := htoken.trans h
  pending := Or.inl hpending
  commit := Or.inl hcommit
  applied := happlied
  reach _ h := by
    rw [WithinReach, hcommit, hlast, happlied]
    exact h

/-- Handling a vote request. -/
theorem announces_handleRequestVote (req : RequestVoteRequest) :
    (n.handleRequestVote req).Ensures False (fun _ => True) (fun r _ => n.Announces safe r.1 false) d := by
  have hvote : ∀ {n₁ : Node} {d₁}, n.Announces safe n₁ false →
      (n₁.castVote req).Ensures False (fun _ => True) (fun r _ => n.Announces safe r.1 false) d₁ := by
    intro n₁ d₁ h
    exact castVote_rule h fun _ _ => ⟨nofun, ⟨h.token, h.pending, h.commit, h.applied, h.reach⟩⟩
  exact handleRequestVote_rule (fun _ => .same rfl rfl rfl rfl rfl) (fun _ _ => .same rfl rfl rfl rfl rfl)
    (fun _ _ => ⟨nofun, hvote (.same rfl rfl rfl rfl rfl)⟩) fun _ _ => hvote (.same rfl rfl rfl rfl rfl)

/-- Merging entries that do not conflict, or do not end below what is committed and not applied, keeps it in the
log. -/
theorem MergesTo.commit_le {req : AppendEntriesRequest} {log : List LogEntry}
    (h : n.MergesTo (req.prevLogIndex + 1) req.entries log)
    (hfree : n.Conflicts req → n.commitIndex ≤ max (req.prevLogIndex + req.entries.length) n.lastApplied)
    (hcommit : n.WithinReach) : n.commitIndex ≤ max (n.snapshotIndex + log.length) n.lastApplied := by
  cases h with
  | held => exact hcommit
  | append =>
    unfold WithinReach lastLogIndex at hcommit
    rw [List.length_append]
    omega
  | @replace held rest entry own hsplit _ hown hterm =>
    have hentry : req.entries[held.length]? = some entry := getElem?_split hsplit 0
    obtain ⟨hlength, hget⟩ := List.getElem?_eq_some_iff.mp hentry
    have hends := hfree ⟨⟨held.length, hlength⟩, own, hown, by rw [List.get_eq_getElem, hget]; exact hterm⟩
    obtain ⟨hlow, hhigh, _⟩ := entryAt_eq_some hown
    unfold lastLogIndex at hhigh
    rw [hsplit, List.length_append] at hends
    rw [List.length_append, List.length_take_of_le (by omega)]
    omega

/-- Handling entries in the current term. -/
theorem announces_appendFromLeader {req : AppendEntriesRequest}
    (hfree : safe → n.PrevMatches req → n.Conflicts req → req.leaderCommit ≤ n.commitIndex →
      n.commitIndex ≤ max (req.prevLogIndex + req.entries.length) n.lastApplied) :
    (n.appendFromLeader req).Ensures False (fun _ => True) (fun r _ => n.Announces safe r.1 false) d := by
  refine appendFromLeader_rule (fun _ _ => .same rfl rfl rfl rfl rfl) fun hprev => ?_
  refine (merges_mergeEntries (Q := fun r _ => ∃ log, n.MergesTo (req.prevLogIndex + 1) req.entries log ∧
    r = ({ n.asFollower with log := log }, .ok ())) nofun fun log _ hmerges => ?_).mono (fun _ => nofun) ?_
  · exact ⟨log, hmerges.keep rfl rfl, rfl⟩
  rintro _ d₂ ⟨log, hmerges, rfl⟩
  refine ⟨nofun, fun _ => followCommit_rule (fun hstays => ⟨nofun, fun _ => ?_⟩) fun _ => ⟨nofun, nofun, fun _ => ?_⟩⟩
  · refine ⟨fun h => h, Or.inl rfl, Or.inl rfl, rfl, fun hsafe => hmerges.commit_le fun hconflicts => ?_⟩
    exact hfree hsafe ⟨hprev.reached, hprev.entry, hprev.boundary⟩ hconflicts hstays
  · refine ⟨fun _ => rfl, Or.inr rfl, Or.inr (Or.inl rfl), rfl, fun _ _ => ?_⟩
    exact le_max_of_le_left (Int.min_le_right _ _)

/-- Handling entries. -/
theorem announces_handleAppendEntries {req : AppendEntriesRequest} (hsafe : safe → ¬n.CutsShort req) :
    (n.handleAppendEntries req).Ensures False (fun _ => True) (fun r _ => n.Announces safe r.1 false) d := by
  refine handleAppendEntries_rule (fun _ => .same rfl rfl rfl rfl rfl) (fun _ _ => .same rfl rfl rfl rfl rfl)
    (fun hhealthy hlt => ⟨nofun, ?_⟩) fun hhealthy hterm =>
      announces_appendFromLeader fun hs hprev hconflicts hstays => Int.not_lt.mp fun hends => ?_
  · have hmoved : ((n.adoptTerm req.term).appendFromLeader req).Ensures False (fun _ => True)
        (fun r _ => (n.adoptTerm req.term).Announces safe r.1 false)
        { d with hard := (n.adoptTerm req.term).hardState } := by
      refine announces_appendFromLeader fun hs hprev hconflicts hstays => Int.not_lt.mp fun hends => ?_
      exact hsafe hs ⟨hhealthy, Int.le_of_lt hlt, ⟨hprev.reached, hprev.entry, hprev.boundary⟩, hconflicts, hstays,
        hends⟩
    exact hmoved.mono (fun _ h => h) fun _ _ h => ⟨h.token, h.pending, h.commit, h.applied, h.reach⟩
  · exact hsafe hs ⟨hhealthy, Int.le_of_eq hterm.symm, hprev, hconflicts, hstays, hends⟩

/-- A snapshot that is adopted reaches at most to the end of the log. -/
theorem WithinReach.adoptSnapshot {snap : Snapshot} (hcommit : n.WithinReach)
    (hindex : n.snapshotIndex ≤ snap.lastIncludedIndex) : (n.adoptSnapshot snap).WithinReach := by
  have hlog := adoptSnapshot_log n snap
  unfold WithinReach lastLogIndex at hcommit ⊢
  rw [hlog, List.length_drop]
  simp only [Node.adoptSnapshot]
  split <;> omega

/-- Handling a snapshot. -/
theorem announces_handleInstallSnapshot (req : InstallSnapshotRequest) :
    (n.handleInstallSnapshot req).Ensures False (fun _ => True) (fun r _ => n.Announces safe r.1 false) d := by
  have hinstall : ∀ {n₁ : Node} {d₁}, n.Announces safe n₁.asFollower false →
      (n₁.installFromLeader req).Ensures False (fun _ => True) (fun r _ => n.Announces safe r.1 false) d₁ := by
    intro n₁ d₁ h
    refine installFromLeader_rule (fun _ => h) fun hnew => ⟨nofun, ?_⟩
    have hinstalled : n.Announces safe (n₁.asFollower.adoptSnapshot req.snapshot).notifyApply false := by
      refine ⟨fun _ => rfl, Or.inr rfl, Or.inr (Or.inl rfl), h.applied, fun hsafe hle => ?_⟩
      exact (h.reach hsafe hle).adoptSnapshot hnew
    exact applySnapshot_rule ⟨nofun, hinstalled⟩ fun _ => ⟨nofun, hinstalled⟩
  exact handleInstallSnapshot_rule (fun _ => .same rfl rfl rfl rfl rfl) (fun _ _ => .same rfl rfl rfl rfl rfl)
    (fun _ _ => ⟨nofun, hinstall (.same rfl rfl rfl rfl rfl)⟩)
    fun _ _ => hinstall (.same rfl rfl rfl rfl rfl)

/-- Stepping down. -/
theorem announces_stepDown (term : Int) :
    (n.stepDown term).Ensures False (fun _ => True) (fun n' _ => n.Announces safe n' false) d :=
  stepDown_rule nofun (.same rfl rfl rfl rfl rfl)

/-- Starting an election. -/
theorem announces_startElection :
    n.startElection.Ensures False (fun _ => True) (fun r _ => n.Announces safe r.1 false) d :=
  startElection_rule False.elim (.same rfl rfl rfl rfl rfl)

/-- Reading a vote. -/
theorem announces_handleVoteResponse (votes majority : ℕ) (resp : RequestVoteResponse) :
    (n.handleVoteResponse votes majority resp).Ensures False (fun _ => True)
      (fun r _ => n.Announces safe r.1 false) d :=
  handleVoteResponse_rule (fun _ => announces_stepDown _) (fun _ _ => .same rfl rfl rfl rfl rfl)
    (fun _ _ _ => .same rfl rfl rfl rfl rfl) fun _ _ => .same rfl rfl rfl rfl rfl

/-- Advancing the commit index leaves the notification to the caller. -/
theorem announces_advanceCommitIndex :
    n.advanceCommitIndex.Ensures False (fun _ => True) (fun r _ => n.Announces safe r.1 r.2) d := by
  refine advanceCommitIndex_rule (fun _ => trivial) (.same rfl rfl rfl rfl rfl) fun i hi => ⟨nofun, ?_⟩
  exact ⟨fun h => h, Or.inl rfl, Or.inr (Or.inr rfl), rfl, fun _ _ => le_max_of_le_left hi.le_lastLogIndex⟩

/-- Reading a response to entries: the goroutine is to notify. -/
theorem announces_handleAppendEntriesResponse (peer : String) (req : AppendEntriesRequest)
    (resp : AppendEntriesResponse) :
    (n.handleAppendEntriesResponse peer req resp).Ensures False (fun _ => True)
      (fun r _ => n.Announces safe r.1 r.2.apply) d :=
  handleAppendEntriesResponse_rule (fun _ => announces_stepDown _) (fun _ _ => .same rfl rfl rfl rfl rfl)
    (fun _ _ _ _ => .same rfl rfl rfl rfl rfl) fun _ _ _ _ => announces_advanceCommitIndex.mono (fun _ h => h)
      fun _ _ h => ⟨h.token, h.pending, h.commit, h.applied, h.reach⟩

/-- Reading a response to a snapshot. -/
theorem announces_handleInstallSnapshotResponse (peer : String) (req : InstallSnapshotRequest)
    (resp : InstallSnapshotResponse) :
    (n.handleInstallSnapshotResponse peer req resp).Ensures False (fun _ => True)
      (fun n' _ => n.Announces safe n' false) d :=
  handleInstallSnapshotResponse_rule (fun _ => announces_stepDown _) (fun _ _ => .same rfl rfl rfl rfl rfl)
    fun _ _ _ => .same rfl rfl rfl rfl rfl

/-- Starting a command. -/
theorem announces_startCommand (cmd : Bytes) :
    (n.startCommand cmd).Ensures False (fun _ => True) (fun r _ => n.Announces safe r.1 false) d := by
  have hadvance : ∀ {d₁}, (n.appended cmd).advanceCommitIndex.Ensures False (fun _ => True)
      (fun r _ => (n.appended cmd).Announces safe r.1 r.2) d₁ := announces_advanceCommitIndex
  refine startCommand_rule (fun _ => .same rfl rfl rfl rfl rfl) (fun _ _ => nofun) fun _ _ =>
    hadvance.mono (fun _ h => h) fun moved _ h => ?_
  have hreach : safe → n.WithinReach → moved.1.WithinReach := by
    intro hsafe hle
    refine h.reach hsafe ?_
    change n.commitIndex ≤ max (n.snapshotIndex + ((n.log ++ _).length : Int)) n.lastApplied
    unfold WithinReach lastLogIndex at hle
    rw [List.length_append]
    omega
  cases hadvanced : moved.2 with
  | true => exact ⟨fun _ => rfl, Or.inr rfl, Or.inr (Or.inl rfl), h.applied, hreach⟩
  | false =>
    rw [hadvanced] at h
    exact ⟨h.token, h.pending, h.commit, h.applied, hreach⟩

/-- Compacting the log. -/
theorem announces_takeSnapshot (index : Int) (data : Bytes) :
    (n.takeSnapshot index data).Ensures False (fun _ => True) (fun r _ => n.Announces safe r.1 false) d := by
  refine takeSnapshot_rule (fun _ => .same rfl rfl rfl rfl rfl) (fun _ => .same rfl rfl rfl rfl rfl)
    fun entry hentry => ⟨nofun, nofun, .same rfl rfl rfl rfl ?_⟩
  obtain ⟨hlow, hhigh, _⟩ := entryAt_eq_some hentry
  unfold lastLogIndex at hhigh
  change index + ((n.log.drop (index - n.snapshotIndex).toNat).length : Int) = n.snapshotIndex + n.log.length
  rw [List.length_drop]
  omega

/-- Building the requests of a leader. -/
theorem announces_installSnapshotRequestForPeer (peer : String) :
    (n.installSnapshotRequestForPeer peer).Ensures False (fun _ => True) (fun r _ => n.Announces safe r.1 false) d :=
  installSnapshotRequestForPeer_rule (fun _ _ => trivial) (fun _ => .same rfl rfl rfl rfl rfl)
    (fun _ _ => .same rfl rfl rfl rfl rfl) (fun _ _ => .same rfl rfl rfl rfl rfl)
    fun _ _ _ _ _ => .same rfl rfl rfl rfl rfl

/-- The same for entries. -/
theorem announces_appendEntriesRequestForPeer (peer : String) :
    (n.appendEntriesRequestForPeer peer).Ensures False (fun _ => True) (fun r _ => n.Announces safe r.1 false) d :=
  appendEntriesRequestForPeer_rule (fun _ _ _ => trivial) (fun _ => .same rfl rfl rfl rfl rfl)
    (fun _ _ => .same rfl rfl rfl rfl rfl) fun _ _ _ _ => .same rfl rfl rfl rfl rfl

end Sections

end Node

/-- What a step that starts a number of calls does to the goroutines that send: no goroutine that is to notify the
apply loop is lost before there is a token, and there is one if a notification is to come `later`. -/
structure SendsKept (fresh calls : ℕ) (token : Prop) (later : Bool) (sends sends' : List Send) : Prop where
  distinct : (sends.map Send.handle).Nodup → (∀ send ∈ sends, send.handle ≠ fresh) → (sends'.map Send.handle).Nodup
  named : ∀ send ∈ sends', send.handle < fresh + calls ∨ ∃ old ∈ sends, old.handle = send.handle
  signals : (sends.map Send.handle).Nodup → Signalling sends → Signalling sends' ∨ token
  later : later = true → Signalling sends'

namespace SendsKept

variable {fresh calls : ℕ} {token : Prop} {later : Bool} {sends : List Send} {send : Send}

/-- The goroutines are left alone. -/
theorem refl (sends : List Send) : SendsKept fresh calls token false sends sends :=
  ⟨fun h _ => h, fun send hsend => Or.inr ⟨send, hsend, rfl⟩, fun _ h => Or.inl h, nofun⟩

/-- A goroutine is started. -/
theorem started (peer : String) (phase : SendPhase) :
    SendsKept fresh 1 token false sends ({ handle := fresh, peer := peer, phase := phase } :: sends) := by
  refine ⟨fun hdistinct hfresh => ?_, fun send hsend => ?_, fun _ ⟨send, hsend, hsignals⟩ => ?_, nofun⟩
  · refine List.nodup_cons.mpr ⟨fun hmem => ?_, hdistinct⟩
    obtain ⟨send, hsend, hhandle⟩ := List.mem_map.mp hmem
    exact hfresh send hsend hhandle
  · rcases List.mem_cons.mp hsend with rfl | hold
    · exact Or.inl (Nat.lt_succ_self fresh)
    · exact Or.inr ⟨send, hold, rfl⟩
  · exact Or.inl ⟨send, List.mem_cons_of_mem _ hsend, hsignals⟩

/-- A goroutine goes on to another phase. -/
theorem setPhase (hsend : send ∈ sends) {phase : SendPhase} (hnotified : send.phase.signalsApply = true → token)
    (hlater : later = true → phase.signalsApply = true) :
    SendsKept fresh calls token later sends (NodeProcess.setPhase sends send.handle phase) := by
  refine ⟨fun hdistinct _ => ?_, fun moved hmoved => ?_, fun hdistinct ⟨other, hother, hsignals⟩ => ?_, fun h => ?_⟩
  · have hsame : (NodeProcess.setPhase sends send.handle phase).map Send.handle = sends.map Send.handle := by
      simp only [NodeProcess.setPhase, List.map_map]
      refine List.map_congr_left fun other _ => ?_
      simp only [Function.comp_apply]
      split <;> rfl
    rwa [hsame]
  · obtain ⟨old, hold, rfl⟩ := List.mem_map.mp hmoved
    refine Or.inr ⟨old, hold, ?_⟩
    split <;> rfl
  · by_cases hhandle : other.handle = send.handle
    · cases List.inj_on_of_nodup_map hdistinct hother hsend hhandle
      exact Or.inr (hnotified hsignals)
    · exact Or.inl ⟨other, List.mem_map.mpr ⟨other, hother, if_neg hhandle⟩, hsignals⟩
  · exact ⟨{ send with phase := phase }, List.mem_map.mpr ⟨send, hsend, if_pos rfl⟩, hlater h⟩

/-- A goroutine ends. -/
theorem finished (hsend : send ∈ sends) (hphase : send.phase.signalsApply = false) :
    SendsKept fresh calls token false sends (sends.filter fun s => s.handle ≠ send.handle) := by
  refine ⟨fun hdistinct _ => ?_, fun old hold => ?_, fun hdistinct ⟨other, hother, hsignals⟩ => ?_, nofun⟩
  · exact hdistinct.sublist (List.filter_sublist.map _)
  · exact Or.inr ⟨old, (List.mem_filter.mp hold).1, rfl⟩
  · refine Or.inl ⟨other, List.mem_filter.mpr ⟨hother, decide_eq_true fun hhandle => ?_⟩, hsignals⟩
    cases List.inj_on_of_nodup_map hdistinct hother hsend hhandle
    exact Bool.false_ne_true (hphase.symm.trans hsignals)

end SendsKept

/-- A goroutine that waits is not about to notify. -/
theorem SendPhase.not_signalsApply_of_waiting {phase : SendPhase} (h : phase.waiting = true) :
    phase.signalsApply = false := by
  cases phase <;> first | rfl | cases h

/-- Only goroutines that wait see their calls fail. -/
theorem Server.exists_waiting_of_callFailed {sv : Server} {fresh handle : ℕ} {fates : List Fate}
    {result : Server × Effects} (h : sv.step fresh fates (.callFailed handle) = some result) :
    ∃ send ∈ sv.sends, send.handle = handle ∧ send.phase.waiting = true := by
  obtain ⟨plan, hplan, _⟩ := Server.exists_plan_of_step h nofun
  simp only [NodeProcess.plan] at hplan
  split at hplan
  · obtain ⟨hmem, rfl⟩ := NodeProcess.findSend_some ‹_›
    split at hplan
    · exact ⟨_, hmem, rfl, by simp only [SendPhase.waiting, *]⟩
    · exact ⟨_, hmem, rfl, by simp only [SendPhase.waiting, *]⟩
    · cases hplan
  · cases hplan

/-- A turn of the apply loop. -/
inductive ApplyTurn (n : Node) : ApplyLoop → Node → ApplyLoop → Prop
  | wake (htoken : n.applyNotify = true) : ApplyTurn n .parked { n with applyNotify := false } .draining
  | take {snap : Snapshot} (hpending : n.pendingSnapshot = some snap) :
      ApplyTurn n .draining { n with pendingSnapshot := none } (.sendingSnapshot snap)
  | drained (hpending : n.pendingSnapshot = none) :
      ApplyTurn n .draining { n with pendingSnapshot := none } .applying
  | sendSnapshot {snap : Snapshot} : ApplyTurn n (.sendingSnapshot snap) n (.sentSnapshot snap)
  | record {snap : Snapshot} : ApplyTurn n (.sentSnapshot snap) (n.snapshotApplied snap) .draining
  | park (hdone : n.commitIndex ≤ n.lastApplied ∨ n.lastLogIndex ≤ n.lastApplied) : ApplyTurn n .applying n .parked
  | pick {entry : LogEntry} {index : Int} : ApplyTurn n .applying n.picked (.sendingEntry entry index)
  | sendEntry {entry : LogEntry} {index : Int} : ApplyTurn n (.sendingEntry entry index) n .applying

/-- A step of a process, as far as the apply loop is concerned. -/
inductive Server.WakeMove (safe : Prop) (sv : Server) (fresh : ℕ) (result : Server × Effects) : Prop
  | rebooted {disk : PersistentState} (h : result.1 = sv.reboot disk)
  | ran {later : Bool} (hnode : sv.node.Announces safe result.1.node later) (happlier : result.1.applier = sv.applier)
      (hsends : SendsKept fresh result.2.calls.length (result.1.node.applyNotify = true) later sv.sends
        result.1.sends)
  | turned (hturn : ApplyTurn sv.node sv.applier result.1.node result.1.applier) (hsends : result.1.sends = sv.sends)

namespace Server.WakeMove

variable {sv : Server} {result : Server × Effects} {safe : Prop} {fresh : ℕ}

/-- A step that leaves no notification to a goroutine. -/
theorem quiet (hnode : sv.node.Announces safe result.1.node false) (happlier : result.1.applier = sv.applier)
    (hsends : SendsKept fresh result.2.calls.length (result.1.node.applyNotify = true) false sv.sends
      result.1.sends) : sv.WakeMove safe fresh result :=
  .ran hnode happlier hsends

/-- A section whose outcome is such a step. -/
theorem perform {A : Type} {p : Section A} {next : A → PersistentState → Server × Effects}
    {Q : A → PersistentState → Prop} (hp : p.Ensures False (fun _ => True) Q sv.disk)
    (hnext : ∀ r disk, Q r disk → sv.WakeMove safe fresh (next r disk)) :
    sv.WakeMove safe fresh (sv.perform [] p next) :=
  Server.perform_rule hp (Or.inr rfl) hnext fun _ _ _ => .rebooted rfl

/-- A handler. -/
theorem receive {req : Request} (hsafe : safe → ∀ r, req = .append r → ¬sv.node.CutsShort r) :
    sv.WakeMove safe fresh (sv.carryOut [] (sv.planReceive req)) := by
  have hhandled : ∀ {R : Type} (wrap : R → Reply) (r : Node × Except RaftError R) disk,
      sv.node.Announces safe r.1 false → sv.WakeMove safe fresh (Server.onDisk disk (sv.handled wrap r)) := by
    intro R wrap r disk h
    obtain ⟨node, _ | _⟩ := r <;> exact .quiet h rfl (.refl _)
  cases req with
  | vote req => exact .perform (Node.announces_handleRequestVote req) (hhandled _)
  | append req => exact .perform (Node.announces_handleAppendEntries fun hs => hsafe hs req rfl) (hhandled _)
  | install req => exact .perform (Node.announces_handleInstallSnapshot req) (hhandled _)

/-- Every step of a process without storage faults is one. -/
theorem of_step {input : Input} (hstep : sv.step fresh [] input = some result)
    (hsafe : safe → ∀ req, input = .receive (.append req) → ¬sv.node.CutsShort req) :
    sv.WakeMove safe fresh result := by
  cases Server.Move.of_step hstep with
  | restart => exact .rebooted rfl
  | dispatch =>
    simp only [NodeProcess.dispatch]
    split
    · exact .quiet (.same rfl rfl rfl rfl rfl) rfl (.refl _)
    · split <;> exact .quiet (.same rfl rfl rfl rfl rfl) rfl (.refl _)
  | electionReset | electionTimeout | pollTimeout | startRoundNotified | startRound | openPoll =>
    exact .quiet (.same rfl rfl rfl rfl rfl) rfl (.refl _)
  | startElection =>
    have hnext : ∀ (r : Node × Option RequestVoteRequest) disk, sv.node.Announces safe r.1 false →
        sv.WakeMove safe fresh (Server.onDisk disk
          ({ sv.toNodeProcess with node := r.1, main := r.2.elim .idle .opening }, {})) :=
      fun r disk hr => .quiet hr rfl (.refl _)
    exact .perform Node.announces_startElection hnext
  | voteAnswered =>
    exact .perform (Node.announces_handleVoteResponse _ _ _) fun r _ hr => .quiet hr rfl (.refl _)
  | visit =>
    refine .perform (Q := fun r _ => sv.node.Announces safe r.1 false)
      (Node.announces_installSnapshotRequestForPeer _) fun r _ hr => ?_
    obtain ⟨node, _ | _ | req⟩ := r
    · exact .quiet hr rfl (.refl _)
    · exact .quiet hr rfl (.refl _)
    · exact .quiet hr rfl (.started _ _)
  | appendTurn =>
    refine .perform (Q := fun r _ => sv.node.Announces safe r.1 false)
      (Node.announces_appendEntriesRequestForPeer _) fun r _ hr => ?_
    obtain ⟨node, _ | _ | req⟩ := r
    · exact .quiet hr rfl (.refl _)
    · exact .quiet hr rfl (.refl _)
    · exact .quiet hr rfl (.started _ _)
  | appendAnswered hsend hphase =>
    refine .perform (Node.announces_handleAppendEntriesResponse _ _ _) fun r _ hr => .ran hr rfl ?_
    exact .setPhase hsend (by rw [hphase]; exact fun hsignals => by cases hsignals) fun h => h
  | installAnswered hsend hphase =>
    refine .perform (Node.announces_handleInstallSnapshotResponse _ _ _) fun r _ hr => .quiet hr rfl ?_
    exact .setPhase hsend (by rw [hphase]; exact fun hsignals => by cases hsignals) (fun hsignals => by cases hsignals)
  | callFailed handle =>
    obtain ⟨send, hsend, rfl, hwaiting⟩ := Server.exists_waiting_of_callFailed hstep
    refine .quiet (.same rfl rfl rfl rfl rfl) rfl
      (.setPhase hsend (fun hsignals => ?_) fun hsignals => by cases hsignals)
    exact absurd ((SendPhase.not_signalsApply_of_waiting hwaiting).symm.trans hsignals) Bool.false_ne_true
  | @signal send signals hsend hphase =>
    cases happly : signals.apply with
    | true =>
      simp only [NodeProcess.stepSignal, happly, if_pos]
      refine .quiet ⟨fun _ => ?_, Or.inr ?_, Or.inr (Or.inl ?_), ?_, fun _ h => ?_⟩ rfl
        (.setPhase hsend (fun _ => ?_) (fun hsignals => by cases hsignals))
      all_goals split <;> first | rfl | exact h
    | false =>
      simp only [NodeProcess.stepSignal, happly, Bool.false_eq_true, if_false]
      refine .quiet ?_ rfl (.setPhase hsend (fun hsignals => ?_) (fun hsignals => by cases hsignals))
      · split <;> exact .same rfl rfl rfl rfl rfl
      · rw [hphase] at hsignals
        exact absurd (happly.symm.trans hsignals) Bool.false_ne_true
  | finish hsend hphase =>
    exact .quiet (.same rfl rfl rfl rfl rfl) rfl (.finished hsend (by rw [hphase]; rfl))
  | notify => exact .quiet (.same rfl rfl rfl rfl rfl) rfl (.refl _)
  | receive req => exact .receive fun hs r hr => hsafe hs r (by rw [hr])
  | startCommand cmd => exact .perform (Node.announces_startCommand cmd) fun r _ hr => .quiet hr rfl (.refl _)
  | takeSnapshot index data =>
    refine .perform (Q := fun r _ => sv.node.Announces safe r.1 false)
      (Node.announces_takeSnapshot index data) fun r _ hr => ?_
    obtain ⟨node, _ | _⟩ := r <;> exact .quiet hr rfl (.refl _)
  | wakeApply happlier htoken => exact .turned (happlier ▸ .wake htoken) rfl
  | drain happlier =>
    refine .turned ?_ rfl
    simp only [NodeProcess.stepDrain, Node.takePendingSnapshot, happlier]
    cases hpending : sv.node.pendingSnapshot with
    | none => exact .drained hpending
    | some snap => exact .take hpending
  | sendSnapshot happlier => exact .turned (happlier ▸ .sendSnapshot) rfl
  | recordSnapshot happlier => exact .turned (happlier ▸ .record) rfl
  | pickEntry happlier =>
    refine .perform (Q := fun r _ => (r = (sv.node, none) ∧
        (sv.node.commitIndex ≤ sv.node.lastApplied ∨ sv.node.lastLogIndex ≤ sv.node.lastApplied)) ∨
      ∃ picked, r = (sv.node.picked, some picked)) ?_ fun r _ hr => ?_
    · exact Node.nextToApply_exact_rule (fun _ _ _ => trivial) (fun hdone => Or.inl ⟨rfl, hdone⟩)
        fun _ _ _ => Or.inr ⟨_, rfl⟩
    · obtain ⟨rfl, hdone⟩ | ⟨picked, rfl⟩ := hr
      · exact .turned (happlier ▸ .park hdone) rfl
      · exact .turned (happlier ▸ .pick) rfl
  | sendEntry happlier => exact .turned (happlier ▸ .sendEntry) rfl

end Server.WakeMove

/-- The apply loop is yet to look for snapshots before it looks for entries. -/
def ApplyLoop.drains : ApplyLoop → Bool
  | draining | sendingSnapshot _ | sentSnapshot _ => true
  | parked | applying | sendingEntry _ _ => false

namespace ApplyTurn

variable {n n' : Node} {applier applier' : ApplyLoop}

/-- The apply loop leaves the commit index alone. -/
theorem commit_eq (h : ApplyTurn n applier n' applier') : n'.commitIndex = n.commitIndex := by
  cases h <;> rfl

/-- It leaves the log alone. -/
theorem last_eq (h : ApplyTurn n applier n' applier') : n'.lastLogIndex = n.lastLogIndex := by
  cases h <;> rfl

/-- It takes nothing back. -/
theorem applied_le (h : ApplyTurn n applier n' applier') : n.lastApplied ≤ n'.lastApplied := by
  cases h with
  | record =>
    simp only [Node.snapshotApplied]
    split <;> omega
  | pick => exact Int.le_add_one (Int.le_refl _)
  | wake | take | drained | sendSnapshot | park | sendEntry => exact Int.le_refl _

/-- The loop passes on to the entries only when no snapshot is left. -/
theorem pending (h : ApplyTurn n applier n' applier')
    (hbefore : applier.drains = false → n.pendingSnapshot = none ∨ n.applyNotify = true)
    (hafter : applier'.drains = false) : n'.pendingSnapshot = none ∨ n'.applyNotify = true := by
  cases h with
  | wake | take | sendSnapshot | record => cases hafter
  | drained => exact Or.inl rfl
  | park | pick | sendEntry => exact hbefore rfl

/-- The loop goes back to the channel only when all committed entries are applied. -/
theorem parked (h : ApplyTurn n applier n' applier') (hcommit : n.WithinReach) (hafter : applier' = .parked) :
    n'.commitIndex ≤ n'.lastApplied := by
  cases h with
  | park hdone => exact hdone.elim (fun happlied => happlied) fun hlast => hcommit.trans (max_le hlast le_rfl)
  | wake | take | drained | sendSnapshot | record | pick | sendEntry => cases hafter

end ApplyTurn

/-- Whatever the apply loop will not find on its way to the channel comes with a token. -/
structure Server.Alert (sv : Server) : Prop where
  distinct : (sv.sends.map Send.handle).Nodup
  pending : sv.applier.drains = false → sv.node.pendingSnapshot = none ∨ sv.node.applyNotify = true
  commit : sv.applier = .parked →
    sv.node.commitIndex ≤ sv.node.lastApplied ∨ sv.node.applyNotify = true ∨ Signalling sv.sends

namespace Server

variable {sv : Server} {result : Server × Effects} {safe : Prop} {fresh : ℕ}

/-- `Run` leaves a token. -/
theorem Alert.boot (id : String) (peers : List String) (disk : PersistentState) : (Server.boot id peers disk).Alert :=
  ⟨List.nodup_nil, fun _ => Or.inr rfl, fun _ => Or.inr (Or.inl rfl)⟩

/-- A new node has its commit index within its log. -/
theorem boot_withinReach (id : String) (peers : List String) (disk : PersistentState) :
    (Server.boot id peers disk).node.WithinReach := by
  refine le_max_of_le_left ?_
  change (newNode id peers disk).commitIndex ≤ (newNode id peers disk).lastLogIndex
  rw [newNode_commitIndex]
  exact Int.min_le_right _ _

/-- Safe steps keep what is committed within reach. -/
theorem WakeMove.withinReach (hmove : sv.WakeMove safe fresh result) (hsafe : safe) (h : sv.node.WithinReach) :
    result.1.node.WithinReach := by
  cases hmove with
  | rebooted hboot => exact hboot ▸ boot_withinReach ..
  | ran hnode => exact hnode.reach hsafe h
  | turned hturn =>
    rw [Node.WithinReach, hturn.commit_eq, hturn.last_eq]
    exact h.trans (max_le_max_left _ hturn.applied_le)

/-- While what is committed is within reach, the apply loop goes to the channel only when it has applied everything
that comes without a token. -/
theorem WakeMove.alert (hmove : sv.WakeMove safe fresh result) (h : sv.Alert)
    (hfresh : ∀ send ∈ sv.sends, send.handle ≠ fresh) (hcommit : sv.node.WithinReach) : result.1.Alert := by
  cases hmove with
  | rebooted hboot => exact hboot ▸ .boot ..
  | @ran later hnode happlier hsends =>
    refine ⟨hsends.distinct h.distinct hfresh, fun hdrains => ?_, fun hparked => ?_⟩
    · rw [happlier] at hdrains
      rcases hnode.pending with hsame | htoken
      · rw [hsame]
        exact (h.pending hdrains).imp_right hnode.token
      · exact Or.inr htoken
    · rw [happlier] at hparked
      rcases hnode.commit with hsame | htoken | hlater
      · rw [hsame, hnode.applied]
        rcases h.commit hparked with happlied | htoken | hsignals
        · exact Or.inl happlied
        · exact Or.inr (Or.inl (hnode.token htoken))
        · exact Or.inr (hsends.signals h.distinct hsignals).symm
      · exact Or.inr (Or.inl htoken)
      · exact Or.inr (Or.inr (hsends.later hlater))
  | turned hturn hsends =>
    exact ⟨hsends ▸ h.distinct, hturn.pending h.pending, fun hparked => Or.inl (hturn.parked hcommit hparked)⟩

/-- The goroutines have old names, or names of the calls that the step starts. -/
theorem WakeMove.named (hmove : sv.WakeMove safe fresh result) :
    ∀ send ∈ result.1.sends, send.handle < fresh + result.2.calls.length ∨
      ∃ old ∈ sv.sends, old.handle = send.handle := by
  cases hmove with
  | rebooted hboot =>
    rw [hboot]
    nofun
  | ran _ _ hsends => exact hsends.named
  | turned _ hsends =>
    rw [hsends]
    exact fun send hsend => Or.inr ⟨send, hsend, rfl⟩

/-- Without a token, and with nobody to leave one, an alert apply loop that waits has applied everything. -/
theorem Alert.applied (h : sv.Alert) (hasleep : sv.Asleep) : sv.node.Applied := by
  obtain ⟨hparked, htoken, hsignals⟩ := hasleep
  have hnone : sv.node.applyNotify ≠ true := by simp [htoken]
  refine ⟨(h.pending (by rw [hparked]; rfl)).resolve_right hnone, ?_⟩
  exact (h.commit hparked).resolve_right (not_or.mpr ⟨hnone, hsignals⟩)

end Server

/-- Storage calls succeed, and each goroutine has a name of its own. -/
def FaultFree (sv : Server) (drive : Drive) : Prop :=
  drive.fates = [] ∧ ∀ send ∈ sv.sends, send.handle ≠ drive.fresh

instance (sv : Server) (drive : Drive) : Decidable (FaultFree sv drive) :=
  inferInstanceAs (Decidable (_ ∧ _))

/-- No request takes away committed entries that are not applied, either. -/
def SparesCommitted (sv : Server) (drive : Drive) : Prop :=
  FaultFree sv drive ∧ ∀ req ∈ drive.input.appends, ¬sv.node.CutsShort req

instance (sv : Server) (drive : Drive) : Decidable (SparesCommitted sv drive) :=
  inferInstanceAs (Decidable (_ ∧ _))

/-- In such runs the apply loop is alert, and what is committed within reach. -/
theorem alert_of_reachable {sv : Server} (run : ServerReachable SparesCommitted sv) :
    sv.Alert ∧ sv.node.WithinReach := by
  refine run.invariant (P := fun sv => sv.Alert ∧ sv.node.WithinReach) ?_ ?_
  · rintro sv ⟨id, peers, disk, rfl⟩
    exact ⟨.boot id peers disk, Server.boot_withinReach id peers disk⟩
  · rintro sv sv' _ ⟨halert, hcommit⟩ ⟨drive, ⟨⟨hfates, hfresh⟩, hspares⟩, hdrive⟩
    obtain ⟨result, hstep, rfl⟩ := Option.map_eq_some_iff.mp hdrive
    rw [hfates] at hstep
    have hmove : sv.WakeMove True drive.fresh result := .of_step hstep fun _ req hinput =>
      hspares req (by rw [hinput]; rfl)
    exact ⟨hmove.alert halert hfresh hcommit, hmove.withinReach trivial hcommit⟩

/-- In a cluster the apply loops are alert, and goroutines have the names of calls. -/
theorem alert_of_undisturbed {m : Membership} {c : Cluster} (run : ClusterReachable m Undisturbed c) :
    ∀ id ∈ m.ids, (c.servers id).Alert ∧ ∀ send ∈ (c.servers id).sends, send.handle < c.calls.length := by
  refine run.invariant (P := fun c => ∀ id ∈ m.ids,
    (c.servers id).Alert ∧ ∀ send ∈ (c.servers id).sends, send.handle < c.calls.length) ?_ ?_
  · rintro _ rfl id _
    exact ⟨.boot .., nofun⟩
  · rintro c c' hc h ⟨a, ⟨hfates, _⟩, hstep⟩ other hother
    obtain ⟨id, input, served, after, effects, _, hserver, rfl⟩ := Cluster.exists_server_step hstep
    obtain ⟨halert, hnamed⟩ := h other hother
    have hcalls : (c.record id input served after effects).calls.length = c.calls.length + effects.calls.length := by
      simp only [Cluster.record, List.length_append, List.length_map]
    rw [hcalls]
    by_cases heq : other = id
    · subst heq
      rw [Cluster.record_servers_self]
      rw [hfates] at hserver
      have hmove : (c.servers other).WakeMove False c.calls.length (after, effects) := .of_step hserver nofun
      have hcommit : (c.servers other).node.WithinReach :=
        le_max_of_le_left (indices_ordered_of_undisturbed hc hother).2.1
      refine ⟨hmove.alert halert (fun send hsend => Nat.ne_of_lt (hnamed send hsend)) hcommit, fun send hsend => ?_⟩
      rcases hmove.named send hsend with hnew | ⟨old, hold, hhandle⟩
      · exact hnew
      · have := hnamed old hold
        omega
    · rw [Cluster.record_servers_of_ne _ _ _ _ _ heq]
      exact ⟨halert, fun send hsend => Nat.lt_add_right _ (hnamed send hsend)⟩

/-- **No member of a cluster sleeps on work.** In every undisturbed run, a member whose apply loop sleeps has
applied everything that it knows to be committed. -/
theorem members_never_sleep_on_work {m : Membership} {c : Cluster} (run : ClusterReachable m Undisturbed c)
    {id : String} (hid : id ∈ m.ids) (hasleep : (c.servers id).Asleep) : (c.servers id).node.Applied :=
  (alert_of_undisturbed run id hid).1.applied hasleep

end ConsensusLab.Raft
