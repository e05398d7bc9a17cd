import ConsensusLab.Raft.ApplyOrder
import ConsensusLab.Raft.LogRefinement
import Mathlib.Data.List.Count

/-!
# A minority that is cut off commits nothing

When the network splits, the members of a side that is no majority may go on to hold
elections, accept commands and replicate them to each other. They commit nothing beyond
what was committed, or matched by members of the other side, when the network split.
Storage may fail and processes may crash on both sides, but a log is compacted only as
far as it has been applied.
-/

namespace ConsensusLab.Raft

open Foundation StorageProgram

/-- No network connects a side with the rest: only calls within the side, and within the rest, are delivered and
answered. Logs are compacted as far as they have been applied. -/
def CutOff (side : Finset String) (c : Cluster) (act : Action) : Prop :=
  match act with
  | .act id (.takeSnapshot index _) _ => index ≤ (c.servers id).node.lastApplied
  | .act _ _ _ => True
  | .deliver handle _ | .answer handle _ _ => ∀ call ∈ c.calls[handle]?, call.caller ∈ side ↔ call.callee ∈ side

instance (side : Finset String) (c : Cluster) (act : Action) : Decidable (CutOff side c act) := by
  unfold CutOff
  split <;> infer_instance

/-- A node has committed and applied nothing behind a bound, and has recorded no progress behind it of members
outside of a side. -/
structure Node.Confined (side : Finset String) (bound : Int) (n : Node) (d : PersistentState) : Prop where
  commit : n.commitIndex ≤ bound
  applied : n.lastApplied ≤ bound
  matched : n.role = .leader → ∀ peer ∈ n.peers, peer ∉ side → n.matchIndex peer ≤ bound
  stored : d.hard.commitIndex ≤ bound

/-- Neither the node of a process nor any of its snapshots reaches behind a bound. -/
structure Server.Confined (side : Finset String) (bound : Int) (sv : Server) : Prop where
  node : sv.node.Confined side bound sv.disk
  snapshots : ∀ snap ∈ sv.snapshots, snap.lastIncludedIndex ≤ bound

/-- The request does not make its receiver commit anything behind a bound. -/
def Request.Confined (bound : Int) : Request → Prop
  | vote _ => True
  | append req => req.leaderCommit ≤ bound
  | install req => req.lastIncludedIndex ≤ bound

/-- Nothing behind a bound is known to be committed on a side, by its processes or the calls between them. -/
structure Cluster.Confined (m : Membership) (side : Finset String) (bound : Int) (c : Cluster) : Prop where
  servers : ∀ id ∈ m.ids, id ∈ side → (c.servers id).Confined side bound
  calls : ∀ call ∈ c.calls, call.caller ∈ side → call.callee ∈ side → call.request.Confined bound

variable {m : Membership} {side : Finset String} {bound : Int} {n n' : Node} {d d' : PersistentState} {id : String}

/-- The hard state of a confined node may be saved, and what else it does without moving its indices. -/
theorem Node.Confined.keep (h : n.Confined side bound d) (hcommit : n'.commitIndex = n.commitIndex)
    (happlied : n'.lastApplied = n.lastApplied) (hrole : n'.role = n.role ∨ n'.role = .follower)
    (hpeers : n'.peers = n.peers) (hmatched : n'.matchIndex = n.matchIndex)
    (hstored : d'.hard = d.hard ∨ d'.hard = n'.hardState) : n'.Confined side bound d' where
  commit := hcommit ▸ h.commit
  applied := happlied ▸ h.applied
  matched hleads peer hpeer houtside := by
    rw [hmatched]
    rcases hrole with hsame | hfollower
    · exact h.matched (hsame ▸ hleads) peer (hpeers ▸ hpeer) houtside
    · cases hfollower.symm.trans hleads
  stored := by
    rcases hstored with hkept | hsaved
    · rw [hkept]
      exact h.stored
    · rw [hsaved]
      exact Int.le_trans (Int.le_of_eq hcommit) h.commit

/-- An index that only members of the side can have matched is not committed by them. -/
theorem Node.Confined.committable (h : n.Confined side bound d) (hside : id ∈ side) (hid : id ∈ m.ids)
    (hsmall : (m.ids.filter (· ∈ side)).length ≤ m.ids.length / 2) (hpeers : n.peers = normalizePeers id m.ids)
    (hconfig : n.config.members.length = m.ids.length) (hleads : n.role = .leader) {i : Int} (hi : n.Committable i) :
    i ≤ bound := by
  by_contra hbehind
  have hquorum := hi.quorum
  have hinside : n.peers.countP (fun p => decide (n.matchIndex p ≥ i)) ≤ n.peers.countP (fun p => decide (p ∈ side)) := by
    refine List.countP_mono_left fun peer hpeer hmatch => ?_
    by_contra houtside
    have := h.matched hleads peer hpeer (by simpa using houtside)
    have := of_decide_eq_true hmatch
    omega
  have hothers : n.peers.countP (fun p => decide (p ∈ side)) + 1 = m.ids.countP (fun p => decide (p ∈ side)) := by
    rw [hpeers, List.countP_eq_length_filter, List.countP_eq_length_filter]
    exact Membership.length_peers_filter hid (by simpa using hside)
  rw [← List.countP_eq_length_filter] at hquorum hsmall
  unfold Node.quorumSize at hquorum
  rw [hconfig] at hquorum
  omega

section Sections

/-- Leave a section where the disk has not stored a commit index behind the bound. -/
abbrev StoredWithin (bound : Int) (d : PersistentState) : Prop := d.hard.commitIndex ≤ bound

/-- Handling a vote request. -/
theorem confined_handleRequestVote (h : n.Confined side bound d) (req : RequestVoteRequest) :
    (n.handleRequestVote req).Ensures True (StoredWithin bound) (fun r d' => r.1.Confined side bound d') d := by
  have hcast : ∀ {n : Node} {d : PersistentState}, n.Confined side bound d →
      (n.castVote req).Ensures True (StoredWithin bound) (fun r d' => r.1.Confined side bound d') d :=
    fun h => Node.castVote_rule h fun _ _ => ⟨fun _ => ⟨h.stored, h⟩, h.keep rfl rfl (Or.inl rfl) rfl rfl (Or.inr rfl)⟩
  refine Node.handleRequestVote_rule (fun _ => h) (fun _ _ => h) (fun _ _ => ⟨fun _ => ⟨h.stored, h⟩, hcast ?_⟩)
    fun _ _ => hcast h
  exact h.keep rfl rfl (Or.inr rfl) rfl rfl (Or.inr rfl)

/-- Handling entries whose leader has committed nothing behind the bound. -/
theorem confined_handleAppendEntries (h : n.Confined side bound d) {req : AppendEntriesRequest}
    (hreq : req.leaderCommit ≤ bound) :
    (n.handleAppendEntries req).Ensures True (StoredWithin bound) (fun r d' => r.1.Confined side bound d') d := by
  have hcommit : ∀ {n : Node} {d : PersistentState}, n.Confined side bound d →
      (n.followCommit req.leaderCommit).Ensures True (StoredWithin bound) (fun r d' => r.1.Confined side bound d') d := by
    intro n d h
    have hmin : min req.leaderCommit n.lastLogIndex ≤ bound := Int.le_trans (Int.min_le_left _ _) hreq
    exact Node.followCommit_rule (fun _ => h) fun _ =>
      ⟨fun _ => ⟨h.stored, hmin, h.applied, h.matched, h.stored⟩, hmin, h.applied, h.matched, hmin⟩
  have hmerge : ∀ {n : Node} {d : PersistentState}, n.Confined side bound d → (n.mergeEntries (req.prevLogIndex + 1) req.entries).Ensures True
      (StoredWithin bound) (fun r d' => r.1.Confined side bound d') d :=
    fun h => Node.mergeEntries_rule (fun _ => h)
      (fun _ _ _ _ _ _ _ => ⟨fun _ => ⟨h.stored, h⟩, h.keep rfl rfl (Or.inl rfl) rfl rfl (Or.inl rfl)⟩)
      fun _ _ _ _ _ _ _ _ => ⟨fun _ => ⟨h.stored, h⟩, fun _ => ⟨h.stored, h.keep rfl rfl (Or.inl rfl) rfl rfl (Or.inl rfl)⟩,
        h.keep rfl rfl (Or.inl rfl) rfl rfl (Or.inl rfl)⟩
  have happend : ∀ {n : Node} {d : PersistentState}, n.Confined side bound d →
      (n.appendFromLeader req).Ensures True (StoredWithin bound) (fun r d' => r.1.Confined side bound d') d := by
    intro n d h
    have hfollows : n.asFollower.Confined side bound d :=
      h.keep rfl rfl (Or.inr rfl) rfl rfl (Or.inl rfl)
    refine Node.appendFromLeader_rule (fun _ _ => hfollows) fun _ => (hmerge hfollows).mono (fun _ h => h) ?_
    exact fun merged d' hm => ⟨fun _ _ => hm, fun _ => (hcommit hm).mono (fun _ h => h)
      fun final d'' hfinal => ⟨fun _ _ => hfinal, fun _ => hfinal⟩⟩
  exact Node.handleAppendEntries_rule (fun _ => h) (fun _ _ => h)
    (fun _ _ => ⟨fun _ => ⟨h.stored, h⟩,
      happend (n := n.adoptTerm req.term) (h.keep rfl rfl (Or.inl rfl) rfl rfl (Or.inr rfl))⟩) fun _ _ => happend h

/-- Handling a snapshot that does not reach behind the bound. -/
theorem confined_handleInstallSnapshot (h : n.Confined side bound d) {req : InstallSnapshotRequest}
    (hreq : req.lastIncludedIndex ≤ bound) :
    (n.handleInstallSnapshot req).Ensures True (StoredWithin bound) (fun r d' => r.1.Confined side bound d') d := by
  have hinstall : ∀ {n : Node} {d : PersistentState}, n.Confined side bound d →
      (n.installFromLeader req).Ensures True (StoredWithin bound) (fun r d' => r.1.Confined side bound d') d := by
    intro n d h
    have hfollows : ∀ {d' : PersistentState}, d'.hard = d.hard → n.asFollower.Confined side bound d' := fun hhard =>
      h.keep rfl rfl (Or.inr rfl) rfl rfl (Or.inl hhard)
    have hcommit : (n.asFollower.adoptSnapshot req.snapshot).commitIndex ≤ bound := by
      have := h.commit
      change (if n.commitIndex < req.lastIncludedIndex then req.lastIncludedIndex else n.commitIndex) ≤ bound
      split <;> omega
    have hadopted : ∀ {d' : PersistentState}, d'.hard.commitIndex ≤ bound →
        (n.asFollower.adoptSnapshot req.snapshot).notifyApply.Confined side bound d' :=
      fun hstored => ⟨hcommit, h.applied, (fun hleads => by cases hleads), hstored⟩
    refine Node.installFromLeader_rule (fun _ => hfollows rfl) fun _ => ⟨fun _ => ⟨h.stored, hfollows rfl⟩, ?_⟩
    exact Node.applySnapshot_rule ⟨fun _ => ⟨h.stored, hadopted h.stored⟩, hadopted h.stored⟩
      fun _ => ⟨fun _ => ⟨hcommit, hadopted hcommit⟩, hadopted hcommit⟩
  exact Node.handleInstallSnapshot_rule (fun _ => h) (fun _ _ => h)
    (fun _ _ => ⟨fun _ => ⟨h.stored, h⟩,
      hinstall (n := n.adoptTerm req.term) (h.keep rfl rfl (Or.inl rfl) rfl rfl (Or.inr rfl))⟩) fun _ _ => hinstall h

/-- Starting an election. -/
theorem confined_startElection (h : n.Confined side bound d) :
    n.startElection.Ensures True (StoredWithin bound) (fun r d' => r.1.Confined side bound d') d :=
  Node.startElection_rule
    (fun _ => ⟨h.stored, h.keep rfl rfl (Or.inr rfl) rfl rfl (Or.inl rfl)⟩)
    (h.keep rfl rfl (Or.inl rfl) rfl rfl (Or.inr rfl))

/-- Stepping down. -/
theorem confined_stepDown (h : n.Confined side bound d) (term : Int) :
    (n.stepDown term).Ensures True (StoredWithin bound) (fun n' d' => n'.Confined side bound d') d :=
  Node.stepDown_rule
    (fun _ => ⟨h.stored, h.keep rfl rfl (Or.inr rfl) rfl rfl (Or.inl rfl)⟩)
    (h.keep rfl rfl (Or.inr rfl) rfl rfl (Or.inr rfl))

/-- Reading a vote; a new leader knows of no progress of its peers. -/
theorem confined_handleVoteResponse (hbound : 0 ≤ bound) (h : n.Confined side bound d) (votes majority : ℕ)
    (resp : RequestVoteResponse) :
    (n.handleVoteResponse votes majority resp).Ensures True (StoredWithin bound)
      (fun r d' => r.1.Confined side bound d') d := by
  refine Node.handleVoteResponse_rule (fun _ => confined_stepDown h _) (fun _ _ => h) (fun _ _ _ => ?_) fun _ _ => h
  refine ⟨h.commit, h.applied, fun _ peer hpeer _ => ?_, h.stored⟩
  have hreset : n.becomeLeader.matchIndex peer = 0 := if_pos (Or.inr hpeer)
  rw [hreset]
  exact hbound

/-- Advancing the commit index, if nothing behind the bound is committable. -/
theorem confined_advanceCommitIndex (h : n.Confined side bound d) (hnone : ∀ i, n.Committable i → i ≤ bound) :
    n.advanceCommitIndex.Ensures True (StoredWithin bound) (fun r d' => r.1.Confined side bound d') d :=
  Node.advanceCommitIndex_rule (fun _ => h.stored) h fun i hi =>
    ⟨fun _ => ⟨hnone i hi, h.applied, h.matched, h.stored⟩, hnone i hi, h.applied, h.matched, hnone i hi⟩

/-- Recording the progress of a member of the side. -/
theorem Node.Confined.recordProgress (h : n.Confined side bound d) {peerID : String} (hpeer : peerID ∈ side)
    (matched : Int) : (n.recordProgress peerID matched).Confined side bound d where
  commit := h.commit
  applied := h.applied
  matched hleads peer hmem houtside := by
    have hother : peer ≠ peerID := fun heq => houtside (heq ▸ hpeer)
    simp only [Node.recordProgress, Function.update_of_ne hother]
    exact h.matched hleads peer hmem houtside
  stored := h.stored

/-- Processing an InstallSnapshot response from a member of the side. -/
theorem confined_handleInstallSnapshotResponse (h : n.Confined side bound d) {peerID : String} (hpeer : peerID ∈ side)
    (req : InstallSnapshotRequest) (resp : InstallSnapshotResponse) :
    (n.handleInstallSnapshotResponse peerID req resp).Ensures True (StoredWithin bound)
      (fun n' d' => n'.Confined side bound d') d :=
  Node.handleInstallSnapshotResponse_rule (fun _ => confined_stepDown h _) (fun _ _ => h)
    fun _ _ _ => (h.recordProgress hpeer _).keep rfl rfl (Or.inl rfl) rfl rfl (Or.inl rfl)

/-- Looking for a snapshot to send. -/
theorem confined_installSnapshotRequestForPeer (h : n.Confined side bound d) (peerID : String) :
    (n.installSnapshotRequestForPeer peerID).Ensures True (StoredWithin bound)
      (fun r d' => r.1.Confined side bound d') d :=
  Node.installSnapshotRequestForPeer_rule (fun _ _ => h.stored) (fun _ => h) (fun _ _ => h)
    (fun _ _ => h.keep rfl rfl (Or.inl rfl) rfl rfl (Or.inl rfl)) fun _ _ _ _ _ => h.keep rfl rfl (Or.inl rfl) rfl rfl (Or.inl rfl)

/-- Building entries to send. -/
theorem confined_appendEntriesRequestForPeer (h : n.Confined side bound d) (peerID : String) :
    (n.appendEntriesRequestForPeer peerID).Ensures True (StoredWithin bound)
      (fun r d' => r.1.Confined side bound d') d :=
  Node.appendEntriesRequestForPeer_rule (fun _ _ _ => h.stored) (fun _ => h)
    (fun _ _ => h.keep rfl rfl (Or.inl rfl) rfl rfl (Or.inl rfl)) fun _ _ _ _ => h.keep rfl rfl (Or.inl rfl) rfl rfl (Or.inl rfl)

/-- Compacting the log. -/
theorem confined_takeSnapshot (h : n.Confined side bound d) (index : Int) (data : Bytes) :
    (n.takeSnapshot index data).Ensures True (StoredWithin bound) (fun r d' => r.1.Confined side bound d') d :=
  Node.takeSnapshot_rule (fun _ => h) (fun _ => h) fun _ _ =>
    ⟨fun _ => ⟨h.stored, h⟩, fun _ => ⟨h.stored, h.keep rfl rfl (Or.inl rfl) rfl rfl (Or.inl rfl)⟩,
      h.keep rfl rfl (Or.inl rfl) rfl rfl (Or.inl rfl)⟩

/-- Picking an entry, which is committed. -/
theorem confined_nextToApply (h : n.Confined side bound d) :
    n.nextToApply.Ensures True (StoredWithin bound) (fun r d' => r.1.Confined side bound d') d := by
  refine Node.nextToApply_rule (fun _ _ _ => h.stored) h fun hcommit _ _ => ⟨h.commit, ?_, h.matched, h.stored⟩
  exact Int.le_trans hcommit h.commit

section Quorums

variable (hid : id ∈ m.ids) (hside : id ∈ side) (hsmall : (m.ids.filter (· ∈ side)).length ≤ m.ids.length / 2)
include hid hside hsmall

/-- Processing an AppendEntries response from a member of the side. -/
theorem confined_handleAppendEntriesResponse (h : n.Confined side bound d) (hplaced : Placed m id n d)
    {peerID : String} (hpeer : peerID ∈ side) (req : AppendEntriesRequest) (resp : AppendEntriesResponse) :
    (n.handleAppendEntriesResponse peerID req resp).Ensures True (StoredWithin bound)
      (fun r d' => r.1.Confined side bound d') d := by
  refine Node.handleAppendEntriesResponse_rule (fun _ => confined_stepDown h _) (fun _ _ => h)
    (fun _ _ _ _ => h.keep rfl rfl (Or.inl rfl) rfl rfl (Or.inl rfl)) fun _ hleads _ _ => ?_
  have hrecorded := h.recordProgress hpeer (req.prevLogIndex + req.entries.length)
  exact confined_advanceCommitIndex hrecorded fun i hi =>
    hrecorded.committable hside hid hsmall hplaced.peers hplaced.config hleads hi

/-- Starting a command. -/
theorem confined_startCommand (h : n.Confined side bound d) (hplaced : Placed m id n d) (cmd : Bytes) :
    (n.startCommand cmd).Ensures True (StoredWithin bound) (fun r d' => r.1.Confined side bound d') d := by
  refine Node.startCommand_rule (fun _ => h) (fun _ _ _ => ⟨h.stored, h⟩) fun _ hleads => ?_
  -- the leader records its own progress, and is on the side
  have happended : (n.appended cmd).Confined side bound { d with log := d.log ++ [n.newEntry cmd] } := by
    refine ⟨h.commit, h.applied, fun hleads peer hpeer houtside => ?_, h.stored⟩
    have hother : peer ≠ n.id := fun heq => houtside (heq ▸ hplaced.self ▸ hside)
    simp only [Node.appended, Function.update_of_ne hother]
    exact h.matched hleads peer hpeer houtside
  have hadvance := confined_advanceCommitIndex happended fun i hi =>
    happended.committable hside hid hsmall hplaced.peers hplaced.config hleads hi
  refine hadvance.mono (fun _ h => h) fun moved d' hmoved => ?_
  split <;> exact hmoved.keep rfl rfl (Or.inl rfl) rfl rfl (Or.inl rfl)

end Quorums

end Sections

namespace Server

variable {sv : Server} {calls : List Call} {replies : List (ℕ × Reply)} {fates : List Fate} {input : Input}
  {result : Server × Effects}

/-- The input does not make a server commit anything behind a bound: requests are confined, responses come from the
side, and the log is compacted as far as it has been applied. -/
def Admits (sv : Server) (side : Finset String) (bound : Int) : Input → Prop
  | .receive req => req.Confined bound
  | .takeSnapshot index _ => index ≤ sv.node.lastApplied
  | .appendAnswered handle _ =>
    ∀ send ∈ sv.sends, send.handle = handle → ∀ req, send.phase = .waitingAppend req → send.peer ∈ side
  | .installAnswered handle _ =>
    ∀ send ∈ sv.sends, send.handle = handle → ∀ req, send.phase = .waitingInstall req → send.peer ∈ side
  | _ => True

/-- A new process has committed and applied its snapshot, or what is stored without one. -/
theorem confined_boot (hbound : 0 ≤ bound) (id : String) (peers : List String) (hstored : d.hard.commitIndex ≤ bound)
    (hsnapshot : ∀ snap, d.snapshot = some snap → snap.lastIncludedIndex ≤ bound) :
    (Server.boot id peers d).node.Confined side bound d := by
  have hcommit : (newNode id peers d).commitIndex ≤ bound := by
    rw [newNode_commitIndex]
    refine Int.le_trans (Int.min_le_left _ _) ?_
    cases hsnap : d.snapshot with
    | none => exact Int.max_le.mpr ⟨hbound, hstored⟩
    | some snap => exact Int.max_le.mpr ⟨hsnapshot snap hsnap, hsnapshot snap hsnap⟩
  have happlied : (newNode id peers d).lastApplied ≤ bound := by
    rw [newNode_lastApplied]
    cases hsnap : d.snapshot with
    | none => exact hbound
    | some snap => exact hsnapshot snap hsnap
  refine ⟨hcommit, happlied, fun hleads => ?_, hstored⟩
  cases (newNode_role id peers d).symm.trans hleads

/-- The snapshots of a server stay confined. -/
theorem Confined.step_snapshots (h : sv.Confined side bound) (hadmits : sv.Admits side bound input)
    (hmove : sv.LogMove input result) : ∀ snap ∈ result.1.snapshots, snap.lastIncludedIndex ≤ bound := by
  intro snap hsnap
  rcases hmove.snapshots hsnap with hold | hbrings
  · exact h.snapshots snap hold
  · cases input with
    | receive req =>
      cases req with
      | install req =>
        cases hbrings
        exact hadmits
      | vote | append => cases hbrings
    | takeSnapshot index data =>
      obtain ⟨rfl, _⟩ := hbrings
      exact Int.le_trans hadmits h.node.applied
    | _ => cases hbrings

/-- A performed section leaves a confined node, or a process that is started again and confined if its snapshots
are. -/
theorem confined_perform (hbound : 0 ≤ bound) {A : Type} {p : Section A}
    {next : A → PersistentState → Server × Effects} {f : A → Node}
    (hp : p.Ensures True (StoredWithin bound) (fun r d' => (f r).Confined side bound d') sv.disk)
    (hnode : ∀ r disk, (next r disk).1.node = f r) (hdisk : ∀ r disk, (next r disk).1.disk = disk)
    (hsnapshots : ∀ snap ∈ (sv.perform fates p next).1.snapshots, snap.lastIncludedIndex ≤ bound) :
    (sv.perform fates p next).1.node.Confined side bound (sv.perform fates p next).1.disk := by
  revert hsnapshots
  refine Server.perform_rule (P := fun result => (∀ snap ∈ result.1.snapshots, snap.lastIncludedIndex ≤ bound) →
    result.1.node.Confined side bound result.1.disk) hp (Or.inl trivial) (fun r disk hr _ => ?_)
    fun _ disk hstored hsnapshots => ?_
  · rw [hnode, hdisk]
    exact hr
  · refine confined_boot hbound sv.node.id sv.node.peers hstored fun snap hsnap => hsnapshots snap ?_
    exact Server.mem_snapshots.mpr (Or.inl (Or.inr (Or.inr hsnap)))

section Step

variable (hbound : 0 ≤ bound) (hid : id ∈ m.ids) (hside : id ∈ side)
  (hsmall : (m.ids.filter (· ∈ side)).length ≤ m.ids.length / 2)
include hbound hid hside hsmall

/-- The node of a server of the side stays confined. -/
theorem Confined.step_node (h : sv.Confined side bound) (hplaced : Placed m id sv.node sv.disk)
    (hadmits : sv.Admits side bound input) {fresh : ℕ} (hmove : sv.Move fresh fates input result) :
    result.1.node.Confined side bound result.1.disk := by
  have hsnapshots := h.step_snapshots hadmits hmove.logMove
  have hkept : ∀ {n' : Node}, n'.commitIndex = sv.node.commitIndex → n'.lastApplied = sv.node.lastApplied →
      n'.role = sv.node.role → n'.peers = sv.node.peers → n'.matchIndex = sv.node.matchIndex →
      n'.Confined side bound sv.disk :=
    fun hcommit happlied hrole hpeers hmatched =>
      h.node.keep hcommit happlied (Or.inl hrole) hpeers hmatched (Or.inl rfl)
  cases hmove with
  | restart =>
    refine confined_boot hbound _ _ h.node.stored fun snap hsnap => hsnapshots snap ?_
    exact Server.mem_snapshots.mpr (Or.inl (Or.inr (Or.inr hsnap)))
  | dispatch =>
    simp only [NodeProcess.dispatch]
    split
    · exact h.node
    · split <;> exact h.node
  | electionReset | openPoll | pollTimeout | startRoundNotified | startRound | callFailed | wakeApply
  | sendSnapshot | sendEntry => exact hkept rfl rfl rfl rfl rfl
  | drain => exact hkept rfl rfl rfl rfl rfl
  | electionTimeout => exact ⟨h.node.commit, h.node.applied, (fun hleads => by cases hleads), h.node.stored⟩
  | startElection => exact confined_perform hbound (confined_startElection h.node) (fun _ _ => rfl) (fun _ _ => rfl) hsnapshots
  | voteAnswered =>
    exact confined_perform hbound (confined_handleVoteResponse hbound h.node ..) (fun _ _ => rfl) (fun _ _ => rfl) hsnapshots
  | visit =>
    refine confined_perform hbound (confined_installSnapshotRequestForPeer h.node _) ?_ ?_ hsnapshots
    all_goals rintro ⟨node, _ | _ | req⟩ disk <;> rfl
  | appendTurn =>
    refine confined_perform hbound (confined_appendEntriesRequestForPeer h.node _) ?_ ?_ hsnapshots
    all_goals rintro ⟨node, _ | _ | req⟩ disk <;> rfl
  | @appendAnswered send req resp hsend hphase =>
    have hpeer : send.peer ∈ side := hadmits send hsend rfl req hphase
    exact confined_perform hbound (confined_handleAppendEntriesResponse hid hside hsmall h.node hplaced hpeer req resp)
      (fun _ _ => rfl) (fun _ _ => rfl) hsnapshots
  | @installAnswered send req resp hsend hphase =>
    have hpeer : send.peer ∈ side := hadmits send hsend rfl req hphase
    exact confined_perform (f := fun n => n) hbound (confined_handleInstallSnapshotResponse h.node hpeer req resp)
      (fun _ _ => rfl) (fun _ _ => rfl) hsnapshots
  | signal =>
    refine hkept ?_ ?_ ?_ ?_ ?_
    all_goals
      simp only [NodeProcess.stepSignal]
      split <;> split <;> rfl
  | finish | notify => exact hkept rfl rfl rfl rfl rfl
  | receive req =>
    cases req with
    | vote req =>
      refine confined_perform hbound (confined_handleRequestVote h.node req) ?_ ?_ hsnapshots
      all_goals rintro ⟨node, _ | _⟩ disk <;> rfl
    | append req =>
      refine confined_perform hbound (confined_handleAppendEntries h.node hadmits) ?_ ?_ hsnapshots
      all_goals rintro ⟨node, _ | _⟩ disk <;> rfl
    | install req =>
      refine confined_perform hbound (confined_handleInstallSnapshot h.node hadmits) ?_ ?_ hsnapshots
      all_goals rintro ⟨node, _ | _⟩ disk <;> rfl
  | startCommand cmd =>
    exact confined_perform hbound (confined_startCommand hid hside hsmall h.node hplaced cmd) (fun _ _ => rfl) (fun _ _ => rfl)
      hsnapshots
  | takeSnapshot index data =>
    refine confined_perform hbound (confined_takeSnapshot h.node index data) ?_ ?_ hsnapshots
    all_goals rintro ⟨node, _ | _⟩ disk <;> rfl
  | @recordSnapshot snap happlier =>
    have hsnap : snap.lastIncludedIndex ≤ bound :=
      h.snapshots snap (Server.mem_snapshots.mpr (Or.inr (by rw [happlier]; rfl)))
    refine ⟨h.node.commit, ?_, h.node.matched, h.node.stored⟩
    have := h.node.applied
    simp only [Node.snapshotApplied]
    split <;> omega
  | pickEntry =>
    exact confined_perform hbound (confined_nextToApply h.node) (fun _ _ => rfl) (fun _ _ => rfl) hsnapshots

end Step

/-- A confined server sends confined requests. -/
theorem Confined.sends (h : sv.Confined side bound) {fresh : ℕ} (hmove : sv.Move fresh fates input result)
    {peer : String} {request : Request} (hcall : (peer, request) ∈ result.2.calls) : request.Confined bound := by
  cases hmove.sends hcall with
  | vote => exact trivial
  | @install snap hsnap => exact h.snapshots snap (Server.mem_snapshots.mpr (Or.inl (Or.inl hsnap)))
  | append hreq =>
    obtain ⟨_, _, hrest⟩ := Option.bind_eq_some_iff.mp hreq
    obtain ⟨_, _, hbuilt⟩ := Option.bind_eq_some_iff.mp hrest
    cases hbuilt
    exact h.node.commit

end Server

/-- What an action contributes to a member of the side is confined. -/
theorem Cluster.Confined.admits {c : Cluster} (h : c.Confined m side bound) (hwired : Wired m c) {act : Action}
    (hcut : CutOff side c act) {input : Input} {served : Option ℕ} (hside : id ∈ side)
    (hsource : Cluster.Source m.ids c act id input served) : (c.servers id).Admits side bound input := by
  cases hsource with
  | act hid hlocal =>
    cases input with
    | takeSnapshot index data => exact hcut
    | receive | appendAnswered | installAnswered => cases hlocal
    | _ => exact trivial
  | @deliver handle call fates hcall =>
    exact h.calls call (List.mem_of_getElem? hcall) ((hcut call hcall).mpr hside) hside
  | @answer handle call reply fates hcall hreply =>
    have hcallee : call.callee ∈ side := (hcut call hcall).mp hside
    have hcaller := (hwired.calls call (List.mem_of_getElem? hcall)).caller
    have hsends := (hwired.servers call.caller hcaller).sends
    cases reply with
    | vote => exact trivial
    | append resp =>
      rintro send hsend rfl req hphase
      have hown := Option.some.inj (hcall.symm.trans ((hsends send hsend).append req hphase))
      rw [hown] at hcallee
      exact hcallee
    | install resp =>
      rintro send hsend rfl req hphase
      have hown := Option.some.inj (hcall.symm.trans ((hsends send hsend).install req hphase))
      rw [hown] at hcallee
      exact hcallee

/-- Every action of a split network keeps the side confined. -/
theorem Cluster.Confined.step (hbound : 0 ≤ bound) (hsmall : (m.ids.filter (· ∈ side)).length ≤ m.ids.length / 2)
    {c c' : Cluster} (h : c.Confined m side bound) (hwired : Wired m c) {act : Action} (hcut : CutOff side c act)
    (hstep : c.step m.ids act = some c') : c'.Confined m side bound := by
  obtain ⟨id, input, served, after, effects, hsource, hmove, rfl⟩ := Cluster.step_cases hstep
  obtain ⟨hid, _⟩ := hwired.source hsource
  refine ⟨fun other hother hinside => ?_, fun call hcall hcaller hcallee => ?_⟩
  · by_cases heq : other = id
    · subst heq
      rw [Cluster.record_servers_self]
      have hadmits := h.admits hwired hcut hinside hsource
      have hserver := h.servers other hother hinside
      exact ⟨hserver.step_node hbound hother hinside hsmall (hwired.servers other hother).placed hadmits hmove,
        hserver.step_snapshots hadmits hmove.logMove⟩
    · rw [Cluster.record_servers_of_ne _ _ _ _ _ heq]
      exact h.servers other hother hinside
  · rcases List.mem_append.mp hcall with hold | hnew
    · exact h.calls call hold hcaller hcallee
    · obtain ⟨⟨peer, request⟩, hsent, rfl⟩ := List.mem_map.mp hnew
      exact (h.servers id hid hcaller).sends hmove hsent

/-- **A minority that is cut off commits nothing.** Take a cluster at any point of any run, split its network so that
at most half of the members are on one side, and take any index behind which nothing is committed on this side and
nothing was acknowledged to it by the other members. In every run of the split network, whatever storage calls fail
and whoever crashes, no member of this side commits or applies anything behind that index. -/
theorem minority_commits_nothing {allowed : Cluster → Action → Prop} {c₀ c : Cluster}
    (before : ClusterReachable m allowed c₀) (hsmall : (m.ids.filter (· ∈ side)).length ≤ m.ids.length / 2)
    (hbound : 0 ≤ bound) (hconfined : c₀.Confined m side bound)
    (run : Reachable (· = c₀) (ClusterStep m (CutOff side)) c) (hid : id ∈ m.ids) (hside : id ∈ side) :
    (c.servers id).node.commitIndex ≤ bound ∧ (c.servers id).node.lastApplied ≤ bound := by
  have hkept : Wired m c ∧ c.Confined m side bound := by
    refine run.invariant (P := fun c => Wired m c ∧ c.Confined m side bound) ?_ ?_
    · rintro _ rfl
      exact ⟨wired_of_reachable before, hconfined⟩
    · rintro c c' _ ⟨hwired, hconfined⟩ ⟨act, hcut, hstep⟩
      exact ⟨hwired.step hstep, hconfined.step hbound hsmall hwired hcut hstep⟩
  have hnode := (hkept.2.servers id hid hside).node
  exact ⟨hnode.commit, hnode.applied⟩

/-- Leader `a` has committed nothing and has heard of no progress of its peers. -/
def LoneLeader (c : Cluster) : Prop :=
  (c.servers "a").node.role = .leader ∧ (c.servers "a").node.commitIndex = 0 ∧ (c.servers "a").node.lastApplied = 0 ∧
    (∀ peer ∈ (c.servers "a").node.peers, (c.servers "a").node.matchIndex peer = 0) ∧
    (c.servers "a").disk.hard.commitIndex = 0 ∧ (c.servers "a").snapshots = [] ∧ ∀ call ∈ c.calls, call.callee ≠ "a"

instance (c : Cluster) : Decidable (LoneLeader c) := inferInstanceAs (Decidable (_ ∧ _))

/-- It is confined to the start of its log. -/
theorem LoneLeader.confined {c : Cluster} (h : LoneLeader c) : c.Confined threeNodes {"a"} 0 := by
  obtain ⟨_, hcommit, happlied, hmatched, hstored, hsnapshots, hcallees⟩ := h
  refine ⟨fun id _ hside => ?_, fun call hcall _ hcallee => ?_⟩
  · cases Finset.mem_singleton.mp hside
    refine ⟨⟨Int.le_of_eq hcommit, Int.le_of_eq happlied, fun _ peer hpeer _ => ?_, Int.le_of_eq hstored⟩, ?_⟩
    · exact Int.le_of_eq (hmatched peer hpeer)
    · rw [hsnapshots]
      exact fun _ hsnap => by cases hsnap
  · exact absurd (Finset.mem_singleton.mp hcallee) (hcallees call hcall)

/-- Leader `a` of three is cut off, accepts a command and sends it to the others, who do not hear of it. -/
theorem minority_commits_nothing_of_lone_leader :
    ∃ c₀ c, ClusterReachable threeNodes (fun _ _ => True) c₀ ∧ LoneLeader c₀ ∧
      Reachable (· = c₀) (ClusterStep threeNodes (CutOff {"a"})) c ∧
      (c.servers "a").node.log.map LogEntry.command = [[7]] ∧ (c.servers "a").node.commitIndex ≤ 0 ∧
      (c.servers "a").node.lastApplied ≤ 0 := by
  have helected : ((Cluster.first threeNodes.ids).run threeNodes (fun _ _ => True) (electionOf "a" 0 1)).map
      (fun c => (decide (LoneLeader c), (c.run threeNodes (CutOff {"a"}) [.act "a" (.startCommand [7]) [],
        .act "a" (.startRound false) [], .act "a" (.visit "b") [], .act "a" .appendTurn []]).map fun c =>
          (c.servers "a").node.log.map LogEntry.command)) = some (true, some [[7]]) := by
    decide +kernel
  obtain ⟨c₀, before, hfacts⟩ := exists_reachable_of_run helected
  obtain ⟨hlone, hcut⟩ := Prod.mk.inj hfacts
  have hlone := of_decide_eq_true hlone
  obtain ⟨c, run, hlog⟩ : ∃ c, Reachable (· = c₀) (ClusterStep threeNodes (CutOff {"a"})) c ∧ _ = _ :=
    exists_reachable_of_execute rfl hcut
  have hkept : (c.servers "a").node.commitIndex ≤ 0 ∧ (c.servers "a").node.lastApplied ≤ 0 :=
    minority_commits_nothing before (by decide) (Int.le_refl 0) hlone.confined run (by decide) (by decide)
  exact ⟨c₀, c, before, hlone, run, hlog, hkept⟩

end ConsensusLab.Raft
