import ConsensusLab.Raft.HandlerRules
import ConsensusLab.Raft.ReplicationRules

/-!
# Identity and configurations

A node keeps its id and its peers, and uses a configuration only if it comes from its
disk, from a snapshot or from a request. What is true of all configurations that a node
is offered, other than those that name nobody and are ignored, stays true of the one it
uses, whatever becomes of its storage calls.
-/

namespace ConsensusLab.Raft

open Foundation

/-- A configuration that names nobody, and is then ignored, or satisfies a condition. -/
def Offers (ok : ClusterConfig → Prop) (config : ClusterConfig) : Prop :=
  config.members.length = 0 ∨ ok config

/-- The configurations on a disk satisfy the condition. -/
structure DiskConfigured (ok : ClusterConfig → Prop) (disk : PersistentState) : Prop where
  config : Offers ok disk.hard.config
  snapshot : ∀ s, disk.snapshot = some s → Offers ok s.config

/-- A node with its id and peers, whose configurations satisfy the condition. -/
structure Configured (ok : ClusterConfig → Prop) (id : String) (peers : List String) (n : Node)
    (disk : PersistentState) : Prop where
  self : n.id = id
  peers : n.peers = peers
  config : ok n.config
  snapshot : ∀ s, n.snapshot = some s → Offers ok s.config
  disk : DiskConfigured ok disk

variable {ok : ClusterConfig → Prop} {id : String} {peers : List String} {n n' : Node} {d : PersistentState}

/-- Only the five fields of a configuration matter. -/
theorem Configured.keep (h : Configured ok id peers n d) (hself : n'.id = n.id) (hpeers : n'.peers = n.peers)
    (hconfig : n'.config = n.config) (hsnapshot : n'.snapshot = n.snapshot) : Configured ok id peers n' d where
  self := hself.trans h.self
  peers := hpeers.trans h.peers
  config := by rw [hconfig]; exact h.config
  snapshot s hs := h.snapshot s (hsnapshot ▸ hs)
  disk := h.disk

/-- The log on disk does not matter. -/
theorem Configured.relog (h : Configured ok id peers n d) (base : Int) (log : List LogEntry) :
    Configured ok id peers n { d with logBase := base, log := log } :=
  ⟨h.self, h.peers, h.config, h.snapshot, h.disk.config, h.disk.snapshot⟩

/-- A configured node may save its hard state. -/
theorem Configured.save (h : Configured ok id peers n d) : Configured ok id peers n { d with hard := n.hardState } :=
  ⟨h.self, h.peers, h.config, h.snapshot, Or.inr h.config, h.disk.snapshot⟩

/-- A configured node may save a suitable snapshot. -/
theorem Configured.saveSnapshot (h : Configured ok id peers n d) {snap : Snapshot} (hsnap : Offers ok snap.config) :
    Configured ok id peers n { d with snapshot := some snap } :=
  ⟨h.self, h.peers, h.config, h.snapshot, h.disk.config, fun s hs => by cases hs; exact hsnap⟩

/-- A restarted node is configured if its id and peers would be. -/
theorem configured_newNode {given : List String} (hown : ok { members := id :: normalizePeers id given })
    (hd : DiskConfigured ok d) : Configured ok id (normalizePeers id given) (newNode id given d) d := by
  have hconfig : ok ((Node.blank id (normalizePeers id given)).restoreHardState d).config := by
    simp only [Node.restoreHardState, Node.blank]
    split
    · exact hd.config.resolve_left (by omega)
    · exact hown
  refine ⟨newNode_id .., newNode_peers .., ?_, fun s hs => ?_, hd⟩
  · rw [newNode_config]
    split
    · exact hconfig
    · rename_i snap hs
      split
      · exact (hd.snapshot snap hs).resolve_left (by omega)
      · exact hconfig
  · rw [newNode_snapshot] at hs
    exact hd.snapshot s hs

section Sections

/-- Handling a vote request keeps the configuration. -/
theorem Configured.handleRequestVote (h : Configured ok id peers n d) (req : RequestVoteRequest) :
    (n.handleRequestVote req).Ensures True (DiskConfigured ok) (fun r d' => Configured ok id peers r.1 d') d := by
  have hcast : ∀ {n d}, Configured ok id peers n d →
      (n.castVote req).Ensures True (DiskConfigured ok) (fun r d' => Configured ok id peers r.1 d') d :=
    fun h => Node.castVote_rule h fun _ _ => ⟨fun _ => ⟨h.disk, h⟩,
      Configured.keep (Configured.save (Configured.keep h rfl rfl rfl rfl)) rfl rfl rfl rfl⟩
  exact Node.handleRequestVote_rule (fun _ => h) (fun _ _ => h)
    (fun _ _ => ⟨fun _ => ⟨h.disk, h⟩,
      hcast (Configured.keep (Configured.save (n := n.adoptTerm req.term) (h.keep rfl rfl rfl rfl)) rfl rfl rfl rfl)⟩)
    (fun _ _ => hcast h)

/-- Handling entries keeps the configuration. -/
theorem Configured.handleAppendEntries (h : Configured ok id peers n d) (req : AppendEntriesRequest) :
    (n.handleAppendEntries req).Ensures True (DiskConfigured ok) (fun r d' => Configured ok id peers r.1 d') d := by
  have hcommit : ∀ {n d}, Configured ok id peers n d →
      (n.followCommit req.leaderCommit).Ensures True (DiskConfigured ok) (fun r d' => Configured ok id peers r.1 d') d :=
    fun h => Node.followCommit_rule (fun _ => h) fun _ => ⟨fun _ => ⟨h.disk, h.keep rfl rfl rfl rfl⟩,
      Configured.keep (Configured.save (Configured.keep h rfl rfl rfl rfl)) rfl rfl rfl rfl⟩
  have hmerge : ∀ {n d}, Configured ok id peers n d →
      (n.mergeEntries (req.prevLogIndex + 1) req.entries).Ensures True (DiskConfigured ok)
        (fun r d' => Configured ok id peers r.1 d') d :=
    fun h => Node.mergeEntries_rule (fun _ => h)
      (fun _ _ _ _ _ _ _ => ⟨fun _ => ⟨h.disk, h⟩, (h.relog _ _).keep rfl rfl rfl rfl⟩)
      (fun _ _ _ _ _ _ _ _ => ⟨fun _ => ⟨h.disk, h⟩,
        fun _ => ⟨(h.relog _ _).disk, (h.relog _ _).keep rfl rfl rfl rfl⟩,
        (h.relog _ _).keep rfl rfl rfl rfl⟩)
  have happend : ∀ {n d}, Configured ok id peers n d →
      (n.appendFromLeader req).Ensures True (DiskConfigured ok) (fun r d' => Configured ok id peers r.1 d') d := by
    intro n d h
    have hf : Configured ok id peers n.asFollower d := h.keep rfl rfl rfl rfl
    refine Node.appendFromLeader_rule (fun _ _ => hf) fun _ => (hmerge hf).mono (fun _ h => h) ?_
    exact fun merged d hm => ⟨fun _ _ => hm, fun _ => (hcommit hm).mono (fun _ h => h)
      fun final d' hfinal => ⟨fun _ _ => hfinal, fun _ => hfinal⟩⟩
  exact Node.handleAppendEntries_rule (fun _ => h) (fun _ _ => h)
    (fun _ _ => ⟨fun _ => ⟨h.disk, h⟩,
      happend (Configured.save (n := n.adoptTerm req.term) (h.keep rfl rfl rfl rfl))⟩)
    (fun _ _ => happend h)

/-- Adopting a suitable snapshot keeps the configuration. -/
theorem Configured.adoptSnapshot (h : Configured ok id peers n d) {snap : Snapshot} (hsnap : Offers ok snap.config) :
    Configured ok id peers (n.adoptSnapshot snap) d where
  self := h.self
  peers := h.peers
  config := by
    change ok (if 0 < snap.config.members.length then snap.config else n.config)
    split
    · exact hsnap.resolve_left (by omega)
    · exact h.config
  snapshot s hs := by
    cases hs
    exact hsnap
  disk := h.disk

/-- Handling a suitable snapshot keeps the configuration. -/
theorem Configured.handleInstallSnapshot (h : Configured ok id peers n d) {req : InstallSnapshotRequest}
    (hreq : Offers ok req.config) :
    (n.handleInstallSnapshot req).Ensures True (DiskConfigured ok) (fun r d' => Configured ok id peers r.1 d') d := by
  have happly : ∀ {n d}, Configured ok id peers n d →
      (n.applySnapshot req.snapshot).Ensures True (DiskConfigured ok) (fun n' d' => Configured ok id peers n' d') d := by
    intro n d h
    have ha : Configured ok id peers (n.adoptSnapshot req.snapshot) d := h.adoptSnapshot hreq
    exact Node.applySnapshot_rule ⟨fun _ => ⟨ha.disk, ha⟩, ha.relog _ _⟩
      fun _ => ⟨fun _ => ⟨ha.save.disk, ha.save⟩, ha.save.relog _ _⟩
  have hinstall : ∀ {n d}, Configured ok id peers n d →
      (n.installFromLeader req).Ensures True (DiskConfigured ok) (fun r d' => Configured ok id peers r.1 d') d := by
    intro n d h
    have hf : Configured ok id peers n.asFollower d := h.keep rfl rfl rfl rfl
    exact Node.installFromLeader_rule (fun _ => hf) fun _ => ⟨fun _ => ⟨h.disk, hf⟩,
      (happly (hf.saveSnapshot hreq)).mono (fun _ h => h) fun _ _ hi => hi.keep rfl rfl rfl rfl⟩
  exact Node.handleInstallSnapshot_rule (fun _ => h) (fun _ _ => h)
    (fun _ _ => ⟨fun _ => ⟨h.disk, h⟩,
      hinstall (Configured.save (n := n.adoptTerm req.term) (h.keep rfl rfl rfl rfl))⟩)
    (fun _ _ => hinstall h)

/-- Starting an election keeps the configuration. -/
theorem Configured.startElection (h : Configured ok id peers n d) :
    n.startElection.Ensures True (DiskConfigured ok)
      (fun r d' => Configured ok id peers r.1 d' ∧ ∀ req, r.2 = some req → req.candidateID = id) d :=
  Node.startElection_rule
    (fun _ => ⟨h.disk, h.keep rfl rfl rfl rfl, fun _ hnone => by cases hnone⟩)
    ⟨Configured.save (n := n.standing) (h.keep rfl rfl rfl rfl), fun _ hsome => by cases hsome; exact h.self⟩

/-- Stepping down keeps the configuration. -/
theorem Configured.stepDown (h : Configured ok id peers n d) (term : Int) :
    (n.stepDown term).Ensures True (DiskConfigured ok) (fun n' d' => Configured ok id peers n' d') d :=
  Node.stepDown_rule (fun _ => ⟨h.disk, h.keep rfl rfl rfl rfl⟩)
    (Configured.save (n := n.retired term) (h.keep rfl rfl rfl rfl))

/-- Reading a vote keeps the configuration, and an election that goes on has counted it. -/
theorem Configured.handleVoteResponse (h : Configured ok id peers n d) (votes majority : ℕ)
    (resp : RequestVoteResponse) :
    (n.handleVoteResponse votes majority resp).Ensures True (DiskConfigured ok)
      (fun r d' => Configured ok id peers r.1 d' ∧
        ∀ count, r.2 = some count → count = if resp.voteGranted then votes + 1 else votes) d :=
  Node.handleVoteResponse_rule
    (fun _ => (h.stepDown _).mono (fun _ h => h) fun _ _ hm => ⟨hm, nofun⟩)
    (fun _ _ => ⟨h, nofun⟩) (fun _ _ _ => ⟨h.keep rfl rfl rfl rfl, nofun⟩)
    (fun _ _ => ⟨h, fun _ hcount => (Option.some.inj hcount).symm⟩)

/-- Advancing the commit index keeps the configuration. -/
theorem Configured.advanceCommitIndex (h : Configured ok id peers n d) :
    n.advanceCommitIndex.Ensures True (DiskConfigured ok) (fun r d' => Configured ok id peers r.1 d') d :=
  Node.advanceCommitIndex_rule (fun _ => h.disk) h fun i _ => ⟨fun _ => h.keep rfl rfl rfl rfl,
    Configured.save (n := { n with commitIndex := i }) (h.keep rfl rfl rfl rfl)⟩

/-- Looking for a snapshot to send keeps the configuration, and what is sent is suitable. -/
theorem Configured.installSnapshotRequestForPeer (h : Configured ok id peers n d) (peerID : String) :
    (n.installSnapshotRequestForPeer peerID).Ensures True (DiskConfigured ok)
      (fun r d' => Configured ok id peers r.1 d' ∧ ∀ req, r.2 = some (some req) → Offers ok req.config) d :=
  Node.installSnapshotRequestForPeer_rule (fun _ _ => h.disk) (fun _ => ⟨h, fun _ hreq => by cases hreq⟩)
    (fun _ _ => ⟨h, fun _ hreq => by cases hreq⟩)
    (fun _ _ => ⟨h.keep rfl rfl rfl rfl, fun _ hreq => by cases hreq⟩)
    (fun _ _ _ snap hsnap => ⟨h.keep rfl rfl rfl rfl, fun _ hreq => by
      cases hreq
      exact h.snapshot snap hsnap⟩)

/-- Building entries to send keeps the configuration. -/
theorem Configured.appendEntriesRequestForPeer (h : Configured ok id peers n d) (peerID : String) :
    (n.appendEntriesRequestForPeer peerID).Ensures True (DiskConfigured ok)
      (fun r d' => Configured ok id peers r.1 d') d :=
  Node.appendEntriesRequestForPeer_rule (fun _ _ _ => h.disk) (fun _ => h)
    (fun _ _ => h.keep rfl rfl rfl rfl) (fun _ _ _ _ => h.keep rfl rfl rfl rfl)

/-- Processing an AppendEntries response keeps the configuration. -/
theorem Configured.handleAppendEntriesResponse (h : Configured ok id peers n d) (peerID : String)
    (req : AppendEntriesRequest) (resp : AppendEntriesResponse) :
    (n.handleAppendEntriesResponse peerID req resp).Ensures True (DiskConfigured ok)
      (fun r d' => Configured ok id peers r.1 d') d :=
  Node.handleAppendEntriesResponse_rule (fun _ => h.stepDown _) (fun _ _ => h)
    (fun _ _ _ _ => h.keep rfl rfl rfl rfl)
    (fun _ _ _ _ => Configured.advanceCommitIndex (h.keep rfl rfl rfl rfl))

/-- Processing an InstallSnapshot response keeps the configuration. -/
theorem Configured.handleInstallSnapshotResponse (h : Configured ok id peers n d) (peerID : String)
    (req : InstallSnapshotRequest) (resp : InstallSnapshotResponse) :
    (n.handleInstallSnapshotResponse peerID req resp).Ensures True (DiskConfigured ok)
      (fun n' d' => Configured ok id peers n' d') d :=
  Node.handleInstallSnapshotResponse_rule (fun _ => h.stepDown _) (fun _ _ => h)
    (fun _ _ _ => h.keep rfl rfl rfl rfl)

/-- Starting a command keeps the configuration. -/
theorem Configured.startCommand (h : Configured ok id peers n d) (cmd : Bytes) :
    (n.startCommand cmd).Ensures True (DiskConfigured ok) (fun r d' => Configured ok id peers r.1 d') d := by
  refine Node.startCommand_rule (fun _ => h) (fun _ _ _ => ⟨h.disk, h⟩) fun _ _ => ?_
  have ha : Configured ok id peers (n.appended cmd) { d with log := d.log ++ [n.newEntry cmd] } :=
    (h.relog _ _).keep rfl rfl rfl rfl
  refine ha.advanceCommitIndex.mono (fun _ h => h) fun moved d' hm => ?_
  change Configured ok id peers (if moved.2 then moved.1.notifyApply else moved.1).signalReplicate d'
  split <;> exact hm.keep rfl rfl rfl rfl

/-- Compacting the log keeps the configuration. -/
theorem Configured.takeSnapshot (h : Configured ok id peers n d) (index : Int) (data : Bytes) :
    (n.takeSnapshot index data).Ensures True (DiskConfigured ok) (fun r d' => Configured ok id peers r.1 d') d := by
  refine Node.takeSnapshot_rule (fun _ => h) (fun _ => h) fun entry _ => ?_
  have hs : Offers ok (n.snapshotAt index entry data).config := Or.inr h.config
  have hc : Configured ok id peers (n.compactTo (n.snapshotAt index entry data))
      { d with snapshot := some (n.snapshotAt index entry data) } :=
    ⟨h.self, h.peers, h.config, fun s hsome => by cases hsome; exact hs, (h.saveSnapshot hs).disk⟩
  exact ⟨fun _ => ⟨h.disk, h⟩, fun _ => ⟨hc.disk, hc⟩, hc.relog _ _⟩

/-- Picking an entry keeps the configuration. -/
theorem Configured.nextToApply (h : Configured ok id peers n d) :
    n.nextToApply.Ensures True (DiskConfigured ok) (fun r d' => Configured ok id peers r.1 d') d :=
  Node.nextToApply_rule (fun _ _ _ => h.disk) h (fun _ _ _ => h.keep rfl rfl rfl rfl)

end Sections

end ConsensusLab.Raft
