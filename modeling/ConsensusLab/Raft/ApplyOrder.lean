import ConsensusLab.Raft.ApplyLoopSafety

/-!
# In which order the apply loop delivers, and which snapshots there are

Commands are delivered one index after another, and a snapshot never leads back behind
what has been delivered. This needs no more than that installed snapshots do not move the
log's start backwards: a snapshot is left for the apply loop only if it reaches behind
what has been applied, and reading an entry that such a snapshot has replaced panics.
Every snapshot in a process was there before or has come with the step's input.
-/

namespace ConsensusLab.Raft

open Foundation

/-- The index of a message. -/
def ApplyMsg.index : ApplyMsg → Int
  | command _ index | snapshot _ index => index

/-- The message may come next when everything up to an index has been delivered. -/
def ApplyMsg.Continues (reached : Int) : ApplyMsg → Prop
  | command _ index => index = reached + 1
  | snapshot _ index => reached ≤ index

/-- The message lies within what a node has applied or its snapshot covers. -/
def ApplyMsg.Within (n : Node) : ApplyMsg → Prop
  | command _ index => index ≤ n.lastApplied
  | snapshot _ index => index ≤ n.snapshotIndex

/-- Where the apply loop stands when everything up to an index has been delivered. -/
def Node.Delivers (n : Node) (reached : Int) : ApplyLoop → Prop
  | .parked | .draining => (n.pendingSnapshot = none → n.lastApplied = reached) ∧
      ∀ s, n.pendingSnapshot = some s → reached ≤ s.lastIncludedIndex ∧ n.lastApplied ≤ s.lastIncludedIndex
  | .sendingSnapshot snap => reached ≤ snap.lastIncludedIndex ∧ n.lastApplied ≤ snap.lastIncludedIndex ∧
      ∀ s, n.pendingSnapshot = some s → snap.lastIncludedIndex ≤ s.lastIncludedIndex
  | .sentSnapshot snap => reached = snap.lastIncludedIndex ∧ n.lastApplied ≤ snap.lastIncludedIndex ∧
      ∀ s, n.pendingSnapshot = some s → snap.lastIncludedIndex ≤ s.lastIncludedIndex
  | .applying => n.lastApplied = reached ∧
      ∀ s, n.pendingSnapshot = some s → n.lastApplied < s.lastIncludedIndex
  | .sendingEntry _ index => index = n.lastApplied ∧ n.lastApplied = reached + 1 ∧
      ∀ s, n.pendingSnapshot = some s → n.lastApplied < s.lastIncludedIndex

/-- The snapshot that the apply loop is about to deliver or has just delivered. -/
def ApplyLoop.snapshot : ApplyLoop → Option Snapshot
  | sendingSnapshot snap | sentSnapshot snap => some snap
  | parked | draining | applying | sendingEntry _ _ => none

/-- The snapshots of a process start no later than the log does. -/
structure Server.SnapshotsHeld (sv : Server) : Prop where
  pending : ∀ s, sv.node.pendingSnapshot = some s → s.lastIncludedIndex ≤ sv.node.snapshotIndex
  applier : ∀ s, sv.applier.snapshot = some s → s.lastIncludedIndex ≤ sv.node.snapshotIndex

variable {sv : Server} {n n' : Node} {reached : Int} {applier : ApplyLoop} {input : Input}

/-- A process that has just been started has delivered nothing. -/
theorem Node.delivers_boot (id : String) (peers : List String) (disk : PersistentState)
    (h : ∀ s, disk.snapshot = some s → 0 ≤ s.lastIncludedIndex) :
    (Server.boot id peers disk).node.Delivers 0 .parked := by
  have hpending : (Server.boot id peers disk).node.pendingSnapshot = disk.snapshot := newNode_pendingSnapshot ..
  have happlied : (Server.boot id peers disk).node.lastApplied =
      disk.snapshot.elim 0 Snapshot.lastIncludedIndex := newNode_lastApplied ..
  refine ⟨fun hnone => ?_, fun s hs => ?_⟩
  · rw [happlied, ← hpending, hnone]
    rfl
  · rw [hpending] at hs
    rw [happlied, hs]
    exact ⟨h s hs, Int.le_refl _⟩

/-- Only the pending snapshot and the applied index of a node matter. -/
theorem Node.Delivers.keep (h : n.Delivers reached applier) (hpending : n'.pendingSnapshot = n.pendingSnapshot)
    (happlied : n'.lastApplied = n.lastApplied) : n'.Delivers reached applier := by
  cases applier <;> simpa only [Node.Delivers, hpending, happlied] using h

/-- A newly installed snapshot that reaches behind what has been applied comes behind all that the apply
loop has in hand. -/
theorem Node.Delivers.install {snap : Snapshot} (h : n.Delivers reached applier)
    (hheld : ∀ s, n.pendingSnapshot = some s → s.lastIncludedIndex ≤ n.snapshotIndex)
    (hhand : ∀ s, applier.snapshot = some s → s.lastIncludedIndex ≤ n.snapshotIndex)
    (hindex : n.snapshotIndex ≤ snap.lastIncludedIndex) (hnew : n.lastApplied < snap.lastIncludedIndex)
    (hpending : n'.pendingSnapshot = some snap) (happlied : n'.lastApplied = n.lastApplied) :
    n'.Delivers reached applier := by
  have hsame : ∀ s, n'.pendingSnapshot = some s → s = snap := fun s hs =>
    Option.some.inj (hs.symm.trans hpending)
  cases applier with
  | parked | draining =>
    refine ⟨fun hnone => absurd (hpending.symm.trans hnone) nofun, fun s hs => ?_⟩
    rw [hsame s hs, happlied]
    refine ⟨?_, Int.le_of_lt hnew⟩
    cases hold : n.pendingSnapshot with
    | none =>
      have := h.1 hold
      omega
    | some old =>
      have := (h.2 old hold).1
      have := hheld old hold
      omega
  | sendingSnapshot hand | sentSnapshot hand =>
    refine ⟨h.1, happlied ▸ h.2.1, fun s hs => ?_⟩
    rw [hsame s hs]
    have := hhand hand rfl
    omega
  | applying =>
    refine ⟨happlied.trans h.1, fun s hs => ?_⟩
    rw [hsame s hs, happlied]
    exact hnew
  | sendingEntry =>
    refine ⟨h.1.trans happlied.symm, happlied.trans h.2.1, fun s hs => ?_⟩
    rw [hsame s hs, happlied]
    exact hnew

/-- Events of the log leave the apply loop where it stands. -/
theorem Node.Delivers.event (h : n.Delivers reached applier)
    (hheld : ∀ s, n.pendingSnapshot = some s → s.lastIncludedIndex ≤ n.snapshotIndex)
    (hhand : ∀ s, applier.snapshot = some s → s.lastIncludedIndex ≤ n.snapshotIndex) {ev : LogEvent}
    (harises : ev.Arises n input) (hnode : n'.holding = (ev.node n).holding) : n'.Delivers reached applier := by
  simp only [Node.holding, Prod.mk.injEq] at hnode
  obtain ⟨_, _, _, _, hpending, happlied⟩ := hnode
  cases harises with
  | none | append | truncate | replace | propose | compact => exact h.keep hpending happlied
  | @install req stored hhealthy hterm hindex =>
    by_cases hnew : n.lastApplied < req.lastIncludedIndex
    · have hset : n'.pendingSnapshot = some req.snapshot := hpending.trans (if_pos hnew)
      exact h.install hheld hhand hindex hnew hset happlied
    · exact h.keep (hpending.trans (if_neg hnew)) happlied

/-- The index up to which everything has been delivered after a step. -/
def Effects.reach (effects : Effects) (reached : Int) : Int :=
  effects.delivered.elim reached ApplyMsg.index

/-- **The apply loop delivers in order.** A step of a process that is not started again delivers nothing,
or what may come next. -/
theorem Server.LogMove.delivers {result : Server × Effects} (hmove : sv.LogMove input result)
    (hinput : input ≠ .restart) (hkept : result.2.lost = none) (h : sv.node.Delivers reached sv.applier)
    (hheld : sv.SnapshotsHeld) :
    (∀ msg, result.2.delivered = some msg → msg.Continues reached ∧ msg.Within result.1.node) ∧
      result.1.node.Delivers (result.2.reach reached) result.1.applier := by
  cases hmove with
  | leads hleads happlier hdelivered =>
    obtain ⟨ev, harises, hnode, _⟩ := hleads
    rw [Effects.reach, hdelivered, happlier]
    exact ⟨(fun _ hmsg => by cases hmsg), h.event hheld.pending hheld.applier harises hnode⟩
  | lost _ _ hover =>
    rcases hover with hrestart | hlost
    · exact absurd hrestart hinput
    · exact absurd hkept hlost
  | wakeApply happlier =>
    rw [happlier] at h
    exact ⟨(fun _ hmsg => by cases hmsg), h⟩
  | drain happlier =>
    rw [happlier] at h
    refine ⟨(fun _ hmsg => by cases hmsg), ?_⟩
    simp only [NodeProcess.stepDrain, Node.takePendingSnapshot, Effects.reach]
    cases hpending : sv.node.pendingSnapshot with
    | none => exact ⟨h.1 hpending, fun _ hs => by cases hs⟩
    | some snap =>
      obtain ⟨hreached, happlied⟩ := h.2 snap hpending
      exact ⟨hreached, happlied, fun _ hs => by cases hs⟩
  | @sendSnapshot snap happlier =>
    rw [happlier] at h
    refine ⟨fun msg hmsg => ?_, rfl, h.2⟩
    cases hmsg
    exact ⟨h.1, hheld.applier snap (by rw [happlier]; rfl)⟩
  | @recordSnapshot snap happlier =>
    rw [happlier] at h
    obtain ⟨rfl, happlied, hpending⟩ := h
    have hmax : (sv.node.snapshotApplied snap).lastApplied = snap.lastIncludedIndex := by
      simp only [Node.snapshotApplied]
      split <;> omega
    refine ⟨(fun _ hmsg => by cases hmsg), fun _ => hmax, fun s hs => ?_⟩
    have := hpending s hs
    exact ⟨this, hmax ▸ this⟩
  | park happlier =>
    rw [happlier] at h
    refine ⟨(fun _ hmsg => by cases hmsg), fun _ => h.1, fun s hs => ?_⟩
    have := h.2 s hs
    have := h.1
    change reached ≤ _ ∧ sv.node.lastApplied ≤ _
    omega
  | @pickEntry entry happlier hcommit hentry =>
    rw [happlier] at h
    refine ⟨(fun _ hmsg => by cases hmsg), rfl, ?_, fun s hs => ?_⟩
    · change sv.node.lastApplied + 1 = reached + 1
      rw [h.1]
    · -- the entry is in the log, so no pending snapshot covers it
      have := hheld.pending s hs
      have := h.2 s hs
      have := (Node.entryAt_eq_some hentry).1
      omega
  | sendEntry happlier =>
    rw [happlier] at h
    obtain ⟨rfl, hreached, hpending⟩ := h
    refine ⟨fun msg hmsg => ?_, rfl, hpending⟩
    cases hmsg
    exact ⟨hreached, Int.le_refl _⟩

/-- All snapshots of a process. -/
def Server.snapshots (sv : Server) : List Snapshot :=
  sv.node.snapshot.toList ++ sv.node.pendingSnapshot.toList ++ sv.disk.snapshot.toList ++
    sv.applier.snapshot.toList

/-- The snapshot has come with an input. -/
def Input.Brings (snap : Snapshot) : Input → Prop
  | receive (.install req) => snap = req.snapshot
  | takeSnapshot index data => snap.lastIncludedIndex = index ∧ snap.data = data
  | _ => False

/-- A snapshot that comes with an input was sent to the node, or its own service has it taken. -/
theorem Cluster.Source.brings {members : List String} {c : Cluster} {act : Action} {id : String}
    {served : Option ℕ} (h : Source members c act id input served) {snap : Snapshot}
    (hbrings : input.Brings snap) :
    (∃ call ∈ c.calls, ∃ req, call.request = .install req ∧ snap = req.snapshot) ∨
      ∃ fates, id ∈ members ∧ act = .act id (.takeSnapshot snap.lastIncludedIndex snap.data) fates := by
  cases h with
  | @act _ input fates hid hlocal =>
    cases input with
    | takeSnapshot index data =>
      obtain ⟨rfl, rfl⟩ := hbrings
      exact Or.inr ⟨fates, hid, rfl⟩
    | receive => cases hlocal
    | _ => cases hbrings
  | @deliver handle call _ hcall =>
    cases hrequest : call.request with
    | install req =>
      rw [hrequest] at hbrings
      exact Or.inl ⟨call, List.mem_of_getElem? hcall, req, hrequest, hbrings⟩
    | vote | append =>
      rw [hrequest] at hbrings
      cases hbrings
  | @answer _ _ reply => cases reply <;> cases hbrings

/-- A snapshot of the log or of the disk after an event was there before or has come with the input. -/
theorem LogEvent.Arises.snapshots {ev : LogEvent} {d : PersistentState} (h : ev.Arises n input) {snap : Snapshot}
    (hsnap : (ev.node n).snapshot = some snap ∨ (ev.node n).pendingSnapshot = some snap ∨
      (ev.disk n d).snapshot = some snap) :
    (n.snapshot = some snap ∨ n.pendingSnapshot = some snap ∨ d.snapshot = some snap) ∨ input.Brings snap := by
  cases h with
  | none | append | truncate | replace | propose => exact Or.inl hsnap
  | @install req stored =>
    have hstored : (LogEvent.disk n d (.install req.snapshot stored)).snapshot = some req.snapshot := by
      cases stored <;> rfl
    rcases hsnap with h | h | h
    · exact Or.inr (Option.some.inj h).symm
    · simp only [LogEvent.node, Node.adoptSnapshot] at h
      split at h
      · exact Or.inr (Option.some.inj h).symm
      · exact Or.inl (Or.inr (Or.inl h))
    · exact Or.inr (Option.some.inj (hstored.symm.trans h)).symm
  | @compact index data entry stored =>
    have hstored : (LogEvent.disk n d (.compact (n.snapshotAt index entry data) stored)).snapshot =
        some (n.snapshotAt index entry data) := by
      cases stored <;> rfl
    rcases hsnap with h | h | h
    · cases Option.some.inj h
      exact Or.inr ⟨rfl, rfl⟩
    · exact Or.inl (Or.inr (Or.inl h))
    · cases Option.some.inj (hstored.symm.trans h)
      exact Or.inr ⟨rfl, rfl⟩

/-- A snapshot is in a process if it is in one of four places. -/
theorem Server.mem_snapshots {snap : Snapshot} : snap ∈ sv.snapshots ↔
    (sv.node.snapshot = some snap ∨ sv.node.pendingSnapshot = some snap ∨ sv.disk.snapshot = some snap) ∨
      sv.applier.snapshot = some snap := by
  simp only [Server.snapshots, List.mem_append, Option.mem_toList, or_assoc]

/-- Every snapshot of a process after a step was there before or has come with the input. -/
theorem Server.LogMove.snapshots {result : Server × Effects} (hmove : sv.LogMove input result)
    {snap : Snapshot} (hsnap : snap ∈ result.1.snapshots) : snap ∈ sv.snapshots ∨ input.Brings snap := by
  rw [Server.mem_snapshots] at hsnap ⊢
  cases hmove with
  | leads hleads happlier =>
    obtain ⟨ev, harises, hnode, hdisk⟩ := hleads
    simp only [Node.holding, PersistentState.files, Prod.mk.injEq] at hnode hdisk
    rw [hnode.2.2.2.1, hnode.2.2.2.2.1, hdisk.2.2, happlier] at hsnap
    rcases hsnap with hsnap | hhand
    · exact (harises.snapshots hsnap).imp Or.inl id
    · exact Or.inl (Or.inr hhand)
  | @lost _ disk _ hleaves =>
    obtain ⟨ev, harises, hdisk⟩ := hleaves
    simp only [PersistentState.files, Prod.mk.injEq] at hdisk
    have hnode : (sv.reboot disk).node.snapshot = disk.snapshot := newNode_snapshot ..
    have hpending : (sv.reboot disk).node.pendingSnapshot = disk.snapshot := newNode_pendingSnapshot ..
    have hstored : disk.snapshot = some snap := by
      rcases hsnap with (h | h | h) | h
      · exact hnode.symm.trans h
      · exact hpending.symm.trans h
      · exact h
      · cases h
    exact (harises.snapshots (Or.inr (Or.inr (hdisk.2.2.symm.trans hstored)))).imp Or.inl id
  | wakeApply happlier | park happlier | pickEntry happlier | sendEntry happlier =>
    exact Or.inl (hsnap.imp id fun h => by cases h)
  | drain happlier =>
    rcases hsnap with (h | h | h) | h
    · exact Or.inl (Or.inl (Or.inl h))
    · cases h
    · exact Or.inl (Or.inl (Or.inr (Or.inr h)))
    · simp only [NodeProcess.stepDrain, Node.takePendingSnapshot] at h
      cases hpending : sv.node.pendingSnapshot with
      | none =>
        rw [hpending] at h
        cases h
      | some s =>
        rw [hpending] at h
        exact Or.inl (Or.inl (Or.inr (Or.inl h)))
  | sendSnapshot happlier =>
    rw [happlier]
    exact Or.inl hsnap
  | recordSnapshot happlier => exact Or.inl (hsnap.imp id fun h => by cases h)

/-- A delivered snapshot is one of the process. -/
theorem Server.LogMove.delivered_snapshot {result : Server × Effects} (hmove : sv.LogMove input result)
    {data : Bytes} {index : Int} (hmsg : result.2.delivered = some (.snapshot data index)) :
    ∃ snap ∈ sv.snapshots, snap.data = data ∧ snap.lastIncludedIndex = index := by
  cases hmove with
  | leads _ _ hdelivered | lost _ hdelivered =>
    rw [hdelivered] at hmsg
    cases hmsg
  | wakeApply | drain | recordSnapshot | park | pickEntry | sendEntry => cases hmsg
  | @sendSnapshot snap happlier =>
    cases hmsg
    exact ⟨snap, Server.mem_snapshots.mpr (Or.inr (by rw [happlier]; rfl)), rfl, rfl⟩

/-- A performed section goes on from its result, or the process is started again. -/
theorem Server.perform_cases {A : Type} (sv : Server) (fates : List Fate) (p : Section A)
    (next : A → PersistentState → Server × Effects) :
    (∃ r disk, sv.perform fates p next = next r disk) ∨
      ∃ b disk, sv.perform fates p next = (sv.reboot disk, { lost := some b }) := by
  unfold Server.perform
  split
  · exact Or.inl ⟨_, _, rfl⟩
  · exact Or.inr ⟨_, _, rfl⟩
  · exact Or.inr ⟨_, _, rfl⟩

/-- A section whose results start no calls. -/
theorem Server.perform_calls {A : Type} {fates : List Fate} {p : Section A}
    {next : A → PersistentState → Server × Effects} (h : ∀ r disk, (next r disk).2.calls = []) :
    (sv.perform fates p next).2.calls = [] := by
  rcases sv.perform_cases fates p next with ⟨r, disk, heq⟩ | ⟨b, disk, heq⟩
  · rw [heq, h]
  · rw [heq]

/-- A section whose results do not lose the process. -/
theorem Server.perform_lost {A : Type} {fates : List Fate} {p : Section A}
    {next : A → PersistentState → Server × Effects} (h : ∀ r disk, (next r disk).2.lost = none)
    (hlost : (sv.perform fates p next).2.lost ≠ none) : ∃ disk, (sv.perform fates p next).1 = sv.reboot disk := by
  rcases sv.perform_cases fates p next with ⟨r, disk, heq⟩ | ⟨b, disk, heq⟩
  · rw [heq, h] at hlost
    exact absurd rfl hlost
  · exact ⟨disk, by rw [heq]⟩

/-- A process that is lost or restarted is started again from its disk. -/
theorem Server.Move.rebooted {fresh : ℕ} {fates : List Fate} {result : Server × Effects}
    (hmove : sv.Move fresh fates input result) (hover : input = .restart ∨ result.2.lost ≠ none) :
    ∃ disk, result.1 = sv.reboot disk := by
  cases hmove with
  | restart => exact ⟨_, rfl⟩
  | dispatch | electionReset | electionTimeout | openPoll | pollTimeout | startRoundNotified | startRound
  | callFailed | signal | finish | notify | wakeApply | drain | sendSnapshot | recordSnapshot | sendEntry =>
    exact absurd hover (by simp [onDisk, NodeProcess.stepOpenPoll, NodeProcess.stepSignal, NodeProcess.stepFinish,
      NodeProcess.stepDrain])
  | startElection | voteAnswered | appendAnswered | installAnswered | startCommand | pickEntry =>
    exact Server.perform_lost (fun _ _ => rfl) (hover.resolve_left (by simp))
  | visit | appendTurn =>
    refine Server.perform_lost (fun r _ => ?_) (hover.resolve_left (by simp))
    obtain ⟨_, _ | _ | _⟩ := r <;> rfl
  | takeSnapshot =>
    refine Server.perform_lost (fun r _ => ?_) (hover.resolve_left (by simp))
    obtain ⟨_, _ | _⟩ := r <;> rfl
  | receive req =>
    cases req
    all_goals
      refine Server.perform_lost (fun r _ => ?_) (hover.resolve_left (by simp))
      obtain ⟨_, _ | _⟩ := r <;> rfl

/-- What a node sends to its peers: requests for votes, its snapshot, and its entries from some index on. -/
inductive Node.Sends (n : Node) : Request → Prop
  | vote (req : RequestVoteRequest) : Sends n (.vote req)
  | install {snap : Snapshot} (hsnap : n.snapshot = some snap) : Sends n (.install (n.snapshotRequest snap))
  | append {next : Int} {req : AppendEntriesRequest} (hreq : n.appendEntriesRequest next = some req) :
      Sends n (.append req)

/-- A request for entries carries entries of the node's log. -/
theorem Node.mem_of_appendEntriesRequest {next : Int} {req : AppendEntriesRequest}
    (h : n.appendEntriesRequest next = some req) {e : LogEntry} (he : e ∈ req.entries) : e ∈ n.log := by
  obtain ⟨term, _, hrest⟩ := Option.bind_eq_some_iff.mp h
  obtain ⟨entries, hentries, hdone⟩ := Option.bind_eq_some_iff.mp hrest
  cases hdone
  unfold Node.entriesToSend Node.entriesFrom at hentries
  split at hentries
  · split at hentries
    · cases hentries
    · cases hentries
      exact List.mem_of_mem_drop he
  · cases hentries
    cases he

/-- Nothing else is sent. -/
theorem Server.Move.sends {fresh : ℕ} {fates : List Fate} {result : Server × Effects}
    (hmove : sv.Move fresh fates input result) {peer : String} {request : Request}
    (hcall : (peer, request) ∈ result.2.calls) : sv.node.Sends request := by
  have hquiet : ∀ {result : Server × Effects}, result.2.calls = [] → (peer, request) ∉ result.2.calls := by
    intro result hnone hmem
    rw [hnone] at hmem
    cases hmem
  cases hmove with
  | restart | dispatch | electionReset | electionTimeout | pollTimeout | startRoundNotified | startRound
  | callFailed | signal | finish | notify | wakeApply | drain | sendSnapshot | recordSnapshot | sendEntry =>
    cases hcall
  | startElection | voteAnswered | appendAnswered | installAnswered | startCommand | pickEntry =>
    exact absurd hcall (hquiet (Server.perform_calls fun _ _ => rfl))
  | takeSnapshot =>
    refine absurd hcall (hquiet (Server.perform_calls fun r _ => ?_))
    obtain ⟨_, _ | _⟩ := r <;> rfl
  | receive req =>
    cases req
    all_goals
      refine absurd hcall (hquiet (Server.perform_calls fun r _ => ?_))
      obtain ⟨_, _ | _⟩ := r <;> rfl
  | @openPoll req =>
    obtain ⟨_, _, hvote⟩ := List.mem_map.mp hcall
    cases hvote
    exact .vote req
  | @visit callee todo =>
    have hsent : (sv.node.installSnapshotRequestForPeer callee).Ensures True (fun _ => True)
        (fun r _ => ∀ req, r.2 = some (some req) → sv.node.Sends (.install req)) sv.disk :=
      Node.installSnapshotRequestForPeer_rule (fun _ _ => trivial) (fun _ => nofun) (fun _ _ => nofun)
        (fun _ _ => nofun) fun _ _ _ snap hsnap req hreq => by
          cases hreq
          exact .install hsnap
    revert hcall
    refine Server.perform_rule (P := fun result => (peer, request) ∈ result.2.calls → sv.node.Sends request)
      hsent (Or.inl trivial) ?_ nofun
    rintro ⟨node, _ | _ | req⟩ disk hreq hcall
    · cases hcall
    · cases hcall
    · cases List.mem_singleton.mp hcall
      exact hreq req rfl
  | @appendTurn callee todo =>
    have hsent : (sv.node.appendEntriesRequestForPeer callee).Ensures True (fun _ => True)
        (fun r _ => ∀ req, r.2 = some (some req) → sv.node.Sends (.append req)) sv.disk :=
      Node.appendEntriesRequestForPeer_rule (fun _ _ _ => trivial) (fun _ => nofun) (fun _ _ => nofun)
        fun _ _ req hbuilt req' hreq => by
          cases hreq
          exact .append hbuilt
    revert hcall
    refine Server.perform_rule (P := fun result => (peer, request) ∈ result.2.calls → sv.node.Sends request)
      hsent (Or.inl trivial) ?_ nofun
    rintro ⟨node, _ | _ | req⟩ disk hreq hcall
    · cases hcall
    · cases hcall
    · cases List.mem_singleton.mp hcall
      exact hreq req rfl

/-- Only the node's own snapshot is sent to peers. -/
theorem Server.Move.installs {fresh : ℕ} {fates : List Fate} {result : Server × Effects}
    (hmove : sv.Move fresh fates input result) {peer : String} {req : InstallSnapshotRequest}
    (hcall : (peer, Request.install req) ∈ result.2.calls) : sv.node.snapshot = some req.snapshot := by
  cases hmove.sends hcall with
  | install hsnap => exact hsnap

end ConsensusLab.Raft
