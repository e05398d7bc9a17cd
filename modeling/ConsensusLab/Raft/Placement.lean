import ConsensusLab.Raft.Configuration
import Mathlib.Data.List.Count

/-!
# Fixed identity and membership

A member of a cluster is a node whose peers are the other members, and to which every
configuration is offered with as many members as the cluster has. No section changes
that, whatever becomes of its storage calls.
-/

namespace ConsensusLab.Raft

open Foundation

/-- A configuration that names nobody, and is then ignored, or as many members as there are. -/
def Membership.Suits (m : Membership) (config : ClusterConfig) : Prop :=
  config.members.length = 0 ∨ config.members.length = m.ids.length

/-- The configurations on a disk suit the membership. -/
structure DiskPlaced (m : Membership) (disk : PersistentState) : Prop where
  config : m.Suits disk.hard.config
  snapshot : ∀ s, disk.snapshot = some s → m.Suits s.config

/-- A node with its own id, the other members as peers, and suitable configurations. -/
structure Placed (m : Membership) (id : String) (n : Node) (disk : PersistentState) : Prop where
  self : n.id = id
  peers : n.peers = normalizePeers id m.ids
  config : n.config.members.length = m.ids.length
  snapshot : ∀ s, n.snapshot = some s → m.Suits s.config
  disk : DiskPlaced m disk

variable {m : Membership} {id : String} {n n' : Node} {d : PersistentState}

/-- The other members are distinct. -/
theorem Membership.peers_nodup (m : Membership) (id : String) : (normalizePeers id m.ids).Nodup :=
  m.nodup.filter _

/-- The peers of a node are the other members. -/
theorem Membership.mem_peers {m : Membership} {id peer : String} :
    peer ∈ normalizePeers id m.ids ↔ peer ∈ m.ids ∧ peer ≠ id := by
  simp [normalizePeers]

/-- A member and its peers are all members. -/
theorem Membership.length_peers {m : Membership} {id : String} (hid : id ∈ m.ids) :
    (normalizePeers id m.ids).length + 1 = m.ids.length := by
  have herase : normalizePeers id m.ids = m.ids.erase id := by
    rw [m.nodup.erase_eq_filter]
    simp [normalizePeers, bne]
    congr
  rw [herase, List.length_erase_of_mem hid]
  have := List.length_pos_of_mem hid
  omega

/-- On a side that it belongs to, a member has one peer less than there are members. -/
theorem Membership.length_peers_filter {m : Membership} {id : String} (hid : id ∈ m.ids) {P : String → Bool}
    (hside : P id = true) : ((normalizePeers id m.ids).filter P).length + 1 = (m.ids.filter P).length := by
  have hself : 0 < m.ids.countP P := List.countP_pos_iff.mpr ⟨id, hid, hside⟩
  have herase : (normalizePeers id m.ids).Perm (m.ids.erase id) := by
    refine (List.perm_ext_iff_of_nodup (m.peers_nodup id) (m.nodup.erase id)).mpr fun p => ?_
    rw [Membership.mem_peers, m.nodup.mem_erase_iff, and_comm]
  rw [← List.countP_eq_length_filter, ← List.countP_eq_length_filter, herase.countP_eq, List.countP_erase,
    if_pos ⟨hid, hside⟩]
  omega

/-- The configuration names as many members as there are. -/
def Membership.Counts (m : Membership) (config : ClusterConfig) : Prop :=
  config.members.length = m.ids.length

/-- The configurations on a disk suit the membership if they are of its size. -/
theorem diskPlaced_iff : DiskPlaced m d ↔ DiskConfigured m.Counts d :=
  ⟨fun h => ⟨h.config, h.snapshot⟩, fun h => ⟨h.config, h.snapshot⟩⟩

/-- A placed node is one whose peers are the other members and whose configurations are of the
membership's size. -/
theorem placed_iff : Placed m id n d ↔ Configured m.Counts id (normalizePeers id m.ids) n d :=
  ⟨fun h => ⟨h.self, h.peers, h.config, h.snapshot, diskPlaced_iff.mp h.disk⟩,
    fun h => ⟨h.self, h.peers, h.config, h.snapshot, diskPlaced_iff.mpr h.disk⟩⟩

/-- Only the five fields of a placement matter. -/
theorem Placed.keep (h : Placed m id n d) (hself : n'.id = n.id) (hpeers : n'.peers = n.peers)
    (hconfig : n'.config = n.config) (hsnapshot : n'.snapshot = n.snapshot) : Placed m id n' d :=
  placed_iff.mpr ((placed_iff.mp h).keep hself hpeers hconfig hsnapshot)

/-- The log on disk does not matter. -/
theorem Placed.relog (h : Placed m id n d) (base : Int) (log : List LogEntry) :
    Placed m id n { d with logBase := base, log := log } :=
  placed_iff.mpr ((placed_iff.mp h).relog base log)

/-- A restarted member is placed. -/
theorem placed_newNode (hid : id ∈ m.ids) (hd : DiskPlaced m d) {peers : List String}
    (hpeers : normalizePeers id peers = normalizePeers id m.ids) : Placed m id (newNode id peers d) d := by
  have hown : m.Counts { members := id :: normalizePeers id peers } := by
    rw [hpeers]
    exact Membership.length_peers hid
  rw [placed_iff, ← hpeers]
  exact configured_newNode hown (diskPlaced_iff.mp hd)

section Sections

variable {A : Type} {p : Section A} {f : A → Node} {Q : A → Prop}

/-- A section that keeps the configurations keeps the placement. -/
theorem Placed.of_configured
    (h : p.Ensures True (DiskConfigured m.Counts)
      (fun r d' => Configured m.Counts id (normalizePeers id m.ids) (f r) d') d) :
    p.Ensures True (DiskPlaced m) (fun r d' => Placed m id (f r) d') d :=
  h.mono (fun _ => diskPlaced_iff.mpr) fun _ _ => placed_iff.mpr

/-- The same with something else that is ensured. -/
theorem Placed.of_configured_and
    (h : p.Ensures True (DiskConfigured m.Counts)
      (fun r d' => Configured m.Counts id (normalizePeers id m.ids) (f r) d' ∧ Q r) d) :
    p.Ensures True (DiskPlaced m) (fun r d' => Placed m id (f r) d' ∧ Q r) d :=
  h.mono (fun _ => diskPlaced_iff.mpr) fun _ _ hr => ⟨placed_iff.mpr hr.1, hr.2⟩

/-- Handling a vote request keeps the placement. -/
theorem Placed.handleRequestVote (h : Placed m id n d) (req : RequestVoteRequest) :
    (n.handleRequestVote req).Ensures True (DiskPlaced m) (fun r d' => Placed m id r.1 d') d :=
  Placed.of_configured ((placed_iff.mp h).handleRequestVote req)

/-- Handling entries keeps the placement. -/
theorem Placed.handleAppendEntries (h : Placed m id n d) (req : AppendEntriesRequest) :
    (n.handleAppendEntries req).Ensures True (DiskPlaced m) (fun r d' => Placed m id r.1 d') d :=
  Placed.of_configured ((placed_iff.mp h).handleAppendEntries req)

/-- Handling a suitable snapshot keeps the placement. -/
theorem Placed.handleInstallSnapshot (h : Placed m id n d) {req : InstallSnapshotRequest}
    (hreq : m.Suits req.config) :
    (n.handleInstallSnapshot req).Ensures True (DiskPlaced m) (fun r d' => Placed m id r.1 d') d :=
  Placed.of_configured ((placed_iff.mp h).handleInstallSnapshot hreq)

/-- Starting an election keeps the placement. -/
theorem Placed.startElection (h : Placed m id n d) :
    n.startElection.Ensures True (DiskPlaced m)
      (fun r d' => Placed m id r.1 d' ∧ ∀ req, r.2 = some req → req.candidateID = id) d :=
  Placed.of_configured_and (placed_iff.mp h).startElection

/-- Reading a vote keeps the placement, and an election that goes on has counted it. -/
theorem Placed.handleVoteResponse (h : Placed m id n d) (votes majority : ℕ) (resp : RequestVoteResponse) :
    (n.handleVoteResponse votes majority resp).Ensures True (DiskPlaced m)
      (fun r d' => Placed m id r.1 d' ∧
        ∀ count, r.2 = some count → count = if resp.voteGranted then votes + 1 else votes) d :=
  Placed.of_configured_and ((placed_iff.mp h).handleVoteResponse votes majority resp)

/-- Looking for a snapshot to send keeps the placement, and what is sent is suitable. -/
theorem Placed.installSnapshotRequestForPeer (h : Placed m id n d) (peerID : String) :
    (n.installSnapshotRequestForPeer peerID).Ensures True (DiskPlaced m)
      (fun r d' => Placed m id r.1 d' ∧ ∀ req, r.2 = some (some req) → m.Suits req.config) d :=
  Placed.of_configured_and ((placed_iff.mp h).installSnapshotRequestForPeer peerID)

/-- Building entries to send keeps the placement. -/
theorem Placed.appendEntriesRequestForPeer (h : Placed m id n d) (peerID : String) :
    (n.appendEntriesRequestForPeer peerID).Ensures True (DiskPlaced m) (fun r d' => Placed m id r.1 d') d :=
  Placed.of_configured ((placed_iff.mp h).appendEntriesRequestForPeer peerID)

/-- Processing an AppendEntries response keeps the placement. -/
theorem Placed.handleAppendEntriesResponse (h : Placed m id n d) (peerID : String)
    (req : AppendEntriesRequest) (resp : AppendEntriesResponse) :
    (n.handleAppendEntriesResponse peerID req resp).Ensures True (DiskPlaced m)
      (fun r d' => Placed m id r.1 d') d :=
  Placed.of_configured ((placed_iff.mp h).handleAppendEntriesResponse peerID req resp)

/-- Processing an InstallSnapshot response keeps the placement. -/
theorem Placed.handleInstallSnapshotResponse (h : Placed m id n d) (peerID : String)
    (req : InstallSnapshotRequest) (resp : InstallSnapshotResponse) :
    (n.handleInstallSnapshotResponse peerID req resp).Ensures True (DiskPlaced m)
      (fun n' d' => Placed m id n' d') d :=
  Placed.of_configured ((placed_iff.mp h).handleInstallSnapshotResponse peerID req resp)

/-- Starting a command keeps the placement. -/
theorem Placed.startCommand (h : Placed m id n d) (cmd : Bytes) :
    (n.startCommand cmd).Ensures True (DiskPlaced m) (fun r d' => Placed m id r.1 d') d :=
  Placed.of_configured ((placed_iff.mp h).startCommand cmd)

/-- Compacting the log keeps the placement. -/
theorem Placed.takeSnapshot (h : Placed m id n d) (index : Int) (data : Bytes) :
    (n.takeSnapshot index data).Ensures True (DiskPlaced m) (fun r d' => Placed m id r.1 d') d :=
  Placed.of_configured ((placed_iff.mp h).takeSnapshot index data)

/-- Picking an entry keeps the placement. -/
theorem Placed.nextToApply (h : Placed m id n d) :
    n.nextToApply.Ensures True (DiskPlaced m) (fun r d' => Placed m id r.1 d') d :=
  Placed.of_configured (placed_iff.mp h).nextToApply

end Sections

end ConsensusLab.Raft
