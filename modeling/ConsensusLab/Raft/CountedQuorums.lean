import ConsensusLab.Foundation.Quorum
import ConsensusLab.Raft.Configuration
import ConsensusLab.Raft.StandingChanges
import ConsensusLab.Raft.ApplyLoopSafety

/-!
# What a counted quorum is a majority of

The threshold for votes and for matching logs comes from the configuration, which is
restored from storage or taken over from snapshots; the nodes counted against it are the
node itself and its peers, which come from its environment. Nothing compares the two. If
every configuration that a node is offered lists the node and all its peers, what it
counts is a strict majority of the configuration, whatever else that lists.
-/

namespace ConsensusLab.Raft

open Foundation

/-- The members among these nodes are a strict majority of the distinct members. -/
def ClusterConfig.HasMajority (config : ClusterConfig) (nodes : List String) : Prop :=
  StrictMajority config.members.toFinset (config.members.toFinset ∩ nodes.toFinset)

instance (config : ClusterConfig) (nodes : List String) : Decidable (config.HasMajority nodes) :=
  inferInstanceAs (Decidable (_ ∧ _))

/-- The configuration lists the node and all its peers. -/
def ListsAll (id : String) (peers : List String) (config : ClusterConfig) : Prop :=
  ∀ p ∈ id :: peers, p ∈ config.members

instance (id : String) (peers : List String) (config : ClusterConfig) : Decidable (ListsAll id peers config) :=
  inferInstanceAs (Decidable (∀ p ∈ id :: peers, _))

instance (ok : ClusterConfig → Prop) [DecidablePred ok] (config : ClusterConfig) :
    Decidable (Offers ok config) :=
  inferInstanceAs (Decidable (_ ∨ _))

/-- What of a node an election or a commit can change, with what identifies the node. -/
def Node.office (n : Node) :
    String × List String × Option Snapshot × ClusterConfig × Role × Int × Bool :=
  (n.id, n.peers, n.snapshot, n.config, n.role, n.commitIndex, n.degraded)

/-- A server with the peers whose votes its election has counted. -/
structure Canvass where
  server : Server
  /-- The name of the election's first call. -/
  base : ℕ
  granted : List String

namespace Canvass

/-- The peers whose votes have been counted once a response is read. -/
def grantedBy (s : Canvass) (handle : ℕ) (resp : RequestVoteResponse) : List String :=
  (if resp.voteGranted then s.server.node.peers[handle - s.base]? else none).toList ++ s.granted

/-- What is known of the votes after a step that leads to the given server: an election's calls are made
to the peers in order, so a call's name tells whose vote its response is. -/
def after (s : Canvass) (drive : Drive) (server : Server) : Canvass :=
  match drive.input with
  | .openPoll => { server := server, base := drive.fresh, granted := [] }
  | .voteAnswered handle resp => { server := server, base := s.base, granted := s.grantedBy handle resp }
  | _ => { server := server, base := s.base, granted := s.granted }

/-- A step of the server. -/
def step (s : Canvass) (drive : Drive) : Option Canvass :=
  (s.server.drive drive).map (s.after drive)

/-- A new server whose stored state is as required. Its peers are the keys of a map. -/
def IsNew (stored : String → List String → PersistentState → Prop) (s : Canvass) : Prop :=
  ∃ id given disk, given.Nodup ∧ stored id (normalizePeers id given) disk ∧
    s = { server := .boot id given disk, base := 0, granted := [] }

/-- Whenever a step wins an election, or commits as leader, the nodes counted for it are a majority. -/
structure CountsMajorities (s s' : Canvass) : Prop where
  election : s.server.node.role ≠ .leader → s'.server.node.role = .leader →
    s'.server.node.config.HasMajority (s'.server.node.id :: s'.granted)
  commit : s.server.node.role = .leader → s'.server.node.role = .leader →
    s.server.node.commitIndex < s'.server.node.commitIndex →
    s'.server.node.config.HasMajority (s'.server.node.id ::
      s'.server.node.peers.filter fun p => s'.server.node.matchIndex p ≥ s'.server.node.commitIndex)

end Canvass

/-- The states that allowed runs reach from servers whose stored state is as required. -/
abbrev CanvassReachable (stored : String → List String → PersistentState → Prop)
    (allowed : Canvass → Drive → Prop) : Canvass → Prop :=
  Reachable (Canvass.IsNew stored) (LabelledStep allowed Canvass.step)

/-- The stored configurations list the node and all its peers, unless they are empty. -/
def StoredListsAll (id : String) (peers : List String) (disk : PersistentState) : Prop :=
  Offers (ListsAll id peers) disk.hard.config ∧ ∀ snap ∈ disk.snapshot, Offers (ListsAll id peers) snap.config

instance (id : String) (peers : List String) (disk : PersistentState) :
    Decidable (StoredListsAll id peers disk) :=
  inferInstanceAs (Decidable (_ ∧ ∀ snap ∈ disk.snapshot, _))

/-- The configuration of an InstallSnapshot request lists the node and all its peers, unless it is empty. -/
def InstallsListAll (s : Canvass) (drive : Drive) : Prop :=
  ∀ req ∈ drive.input.installs, Offers (ListsAll s.server.node.id s.server.node.peers) req.config

instance (s : Canvass) (drive : Drive) : Decidable (InstallsListAll s drive) :=
  inferInstanceAs (Decidable (∀ req ∈ drive.input.installs, _))

/-- Distinct nodes that the configuration lists, as many as its quorum, are a majority of it. -/
theorem hasMajority_of_count {config : ClusterConfig} {nodes : List String} (hnodup : nodes.Nodup)
    (hlisted : ∀ v ∈ nodes, v ∈ config.members) (hcount : config.members.length / 2 + 1 ≤ nodes.length) :
    config.HasMajority nodes := by
  have hdistinct : config.members.dedup.toFinset = config.members.toFinset := by
    ext v
    rw [List.mem_toFinset, List.mem_toFinset, List.mem_dedup]
  have hle : config.members.dedup.length ≤ config.members.length := config.members.dedup_sublist.length_le
  have hmajority : StrictMajority config.members.dedup.toFinset nodes.toFinset :=
    strictMajority_of_list config.members.nodup_dedup hnodup
      (fun v hv => List.mem_dedup.mpr (hlisted v hv)) (by omega)
  rw [hdistinct] at hmajority
  unfold ClusterConfig.HasMajority
  rw [Finset.inter_eq_right.mpr hmajority.1]
  exact hmajority

/-- The votes of an election come from distinct peers, none of which is still waited for, and are counted
against the quorum of the configuration in use as long as the node stands. -/
structure Canvass.Polls (peers : List String) (s : Canvass) (poll : Poll) : Prop where
  distinct : poll.awaiting.Nodup
  called : ∀ handle ∈ poll.awaiting, s.base ≤ handle ∧ handle < s.base + peers.length
  voters : s.granted.Nodup
  counted : ∀ p ∈ s.granted, ∃ k, peers[k]? = some p ∧ s.base + k ∉ poll.awaiting
  votes : poll.votes = 1 + s.granted.length
  majority : s.server.node.role = .candidate → poll.majority = s.server.node.quorumSize

/-- A server whose configurations list its node and all peers, with the votes of its election. -/
structure Canvass.Sound (id : String) (peers : List String) (s : Canvass) : Prop where
  configured : Configured (ListsAll id peers) id peers s.server.node s.server.disk
  polls : ∀ poll, s.server.main = .polling poll → s.Polls peers poll

namespace Canvass

variable {id : String} {peers : List String} {s : Canvass} {drive : Drive} {result : Server × Effects}

/-- Nodes among the peers, with the node itself, that are as many as the quorum. -/
theorem hasMajority (hpeers : (id :: peers).Nodup) {n : Node} {voters : List String}
    (hconfig : ListsAll id peers n.config) (hnodup : voters.Nodup) (hvoters : ∀ v ∈ voters, v ∈ peers)
    (hcount : n.quorumSize ≤ 1 + voters.length) : n.config.HasMajority (id :: voters) := by
  obtain ⟨hself, _⟩ := List.nodup_cons.mp hpeers
  refine hasMajority_of_count (List.nodup_cons.mpr ⟨fun hmem => hself (hvoters id hmem), hnodup⟩) ?_ ?_
  · intro v hv
    rcases List.mem_cons.mp hv with rfl | hv
    · exact hconfig v List.mem_cons_self
    · exact hconfig v (List.mem_cons_of_mem _ (hvoters v hv))
  · rw [List.length_cons]
    unfold Node.quorumSize at hcount
    omega

/-- A change of the standing that is not a won election commits with a majority, if it commits. -/
theorem countsMajorities_of_change (hpeers : (id :: peers).Nodup) {s' : Canvass}
    (hconfigured : Configured (ListsAll id peers) id peers s'.server.node s'.server.disk)
    (hchange : StandingChange s.server.node s'.server.node) : s.CountsMajorities s' := by
  cases hchange with
  | kept hrole hcommit =>
    exact ⟨fun hnot hleads => absurd (hrole.symm.trans hleads) hnot,
      fun _ _ hlt => absurd hcommit (Int.ne_of_gt hlt)⟩
  | followed _ hrole =>
    exact ⟨fun _ hleads => absurd (hrole.symm.trans hleads) nofun,
      fun _ hleads => absurd (hrole.symm.trans hleads) nofun⟩
  | retired hrole =>
    exact ⟨fun _ hleads => absurd (hrole.symm.trans hleads) nofun,
      fun _ hleads => absurd (hrole.symm.trans hleads) nofun⟩
  | committed hleads _ _ hquorum =>
    refine ⟨fun hnot => absurd hleads hnot, fun _ _ _ => ?_⟩
    have hnodup : peers.Nodup := (List.nodup_cons.mp hpeers).2
    rw [hconfigured.peers] at hquorum ⊢
    rw [hconfigured.self]
    exact hasMajority hpeers hconfigured.config (hnodup.filter _) (fun v hv => List.mem_of_mem_filter hv) hquorum

/-- An election's votes are not touched by a step that changes the standing in another way. -/
theorem Polls.keep {poll : Poll} {sv' : Server} (h : s.Polls peers poll)
    (hchange : StandingChange s.server.node sv'.node) : ({ s with server := sv' } : Canvass).Polls peers poll := by
  refine ⟨h.distinct, h.called, h.voters, h.counted, h.votes, fun hstands => ?_⟩
  have hstands' : sv'.node.role = .candidate := hstands
  cases hchange with
  | kept hrole _ hconfig =>
    rw [h.majority (hrole.symm.trans hstands'), Node.quorumSize, Node.quorumSize, hconfig]
  | followed _ hrole => exact absurd (hrole.symm.trans hstands') (by decide)
  | retired hrole => exact absurd (hrole.symm.trans hstands') (by decide)
  | committed _ hrole => exact absurd (hrole.symm.trans hstands') (by decide)

/-- A step leads to a sound state and has counted majorities. -/
structure Progress (id : String) (peers : List String) (s s' : Canvass) : Prop where
  sound : s'.Sound id peers
  counts : s.CountsMajorities s'

/-- A step that changes the standing, and leaves the main loop in its election or takes it out. -/
theorem Progress.change (hpeers : (id :: peers).Nodup) (h : s.Sound id peers) {sv' : Server}
    (hconfigured : Configured (ListsAll id peers) id peers sv'.node sv'.disk)
    (hchange : StandingChange s.server.node sv'.node)
    (hmain : sv'.main = s.server.main ∨ ∀ poll, sv'.main ≠ .polling poll) :
    Progress id peers s { s with server := sv' } := by
  refine ⟨⟨hconfigured, fun poll hpoll => ?_⟩, countsMajorities_of_change hpeers hconfigured hchange⟩
  rcases hmain with hsame | hout
  · exact (h.polls poll (hsame.symm.trans hpoll)).keep hchange
  · exact absurd hpoll (hout poll)

/-- A process that is started again is sound. -/
theorem Progress.reboot (hpeers : (id :: peers).Nodup) (h : s.Sound id peers) {disk : PersistentState}
    (hdisk : DiskConfigured (ListsAll id peers) disk) (base : ℕ) (granted : List String) :
    Progress id peers s { server := s.server.reboot disk, base := base, granted := granted } := by
  have hself : id ∉ peers := (List.nodup_cons.mp hpeers).1
  have hnormal : normalizePeers id peers = peers := by
    refine List.filter_eq_self.mpr fun p hp => ?_
    simp only [decide_eq_true_eq]
    exact fun heq => hself (heq ▸ hp)
  have hown : ListsAll id peers { members := id :: normalizePeers id peers } := by
    rw [hnormal]
    exact fun p hp => hp
  have hnew := configured_newNode hown hdisk
  rw [hnormal, ← h.configured.self, ← h.configured.peers] at hnew
  have hrole : (s.server.reboot disk).node.role = .follower :=
    newNode_role s.server.node.id s.server.node.peers disk
  refine ⟨⟨?_, fun poll hpoll => by cases hpoll⟩, fun _ hleads => absurd (hrole.symm.trans hleads) nofun,
    fun _ hleads => absurd (hrole.symm.trans hleads) nofun⟩
  rw [← h.configured.self, ← h.configured.peers]
  exact hnew.keep rfl rfl rfl rfl

/-- A performed section that changes the standing. -/
theorem Progress.perform {A : Type} {fates : List Fate} {p : Section A}
    {next : A → PersistentState → Server × Effects} {f : A → Node} (hpeers : (id :: peers).Nodup)
    (h : s.Sound id peers)
    (hstanding : p.Ensures True (fun _ => True) (fun r _ => StandingChange s.server.node (f r)) s.server.disk)
    (hconfigured : p.Ensures True (DiskConfigured (ListsAll id peers))
      (fun r d' => Configured (ListsAll id peers) id peers (f r) d') s.server.disk)
    (hnode : ∀ r disk, (next r disk).1.node = f r) (hdisk : ∀ r disk, (next r disk).1.disk = disk)
    (hmain : ∀ r disk, (next r disk).1.main = s.server.main ∨ ∀ poll, (next r disk).1.main ≠ .polling poll) :
    Progress id peers s { s with server := (s.server.perform fates p next).1 } := by
  refine Server.perform_rule (P := fun result => Progress id peers s { s with server := result.1 })
    (hstanding.and hconfigured) (Or.inl trivial) ?_ fun _ disk hlost => .reboot hpeers h hlost.2 _ _
  intro r disk hr
  refine .change hpeers h ?_ ?_ (hmain r disk)
  · rw [hnode, hdisk]
    exact hr.2
  · rw [hnode]
    exact hr.1

/-- Reading a response counts the vote of one more peer, or none. -/
theorem Polls.read {poll : Poll} (h : s.Polls peers poll) (hpeers : s.server.node.peers = peers)
    (hnodup : peers.Nodup) {handle : ℕ} (hawaited : handle ∈ poll.awaiting) (resp : RequestVoteResponse) :
    (s.grantedBy handle resp).Nodup ∧
      (∀ p ∈ s.grantedBy handle resp, ∃ k, peers[k]? = some p ∧ s.base + k ∉ poll.awaiting.erase handle) ∧
      (if resp.voteGranted then poll.votes + 1 else poll.votes) = 1 + (s.grantedBy handle resp).length := by
  have hkept : ∀ p ∈ s.granted, ∃ k, peers[k]? = some p ∧ s.base + k ∉ poll.awaiting.erase handle := by
    intro p hp
    obtain ⟨k, hk, hdone⟩ := h.counted p hp
    exact ⟨k, hk, fun hmem => hdone (List.mem_of_mem_erase hmem)⟩
  unfold grantedBy
  cases hgranted : resp.voteGranted with
  | false =>
    simp only [Bool.false_eq_true, if_false, Option.toList_none, List.nil_append]
    exact ⟨h.voters, hkept, h.votes⟩
  | true =>
    obtain ⟨hlow, hhigh⟩ := h.called handle hawaited
    have hlt : handle - s.base < peers.length := by omega
    obtain ⟨p, hp⟩ : ∃ p, peers[handle - s.base]? = some p := ⟨_, List.getElem?_eq_getElem hlt⟩
    have hbase : s.base + (handle - s.base) = handle := by omega
    have hnew : p ∉ s.granted := by
      intro hmem
      obtain ⟨k, hk, hdone⟩ := h.counted p hmem
      have hsame : handle - s.base = k := (List.getElem?_inj hlt hnodup).mp (hp.trans hk.symm)
      rw [← hsame, hbase] at hdone
      exact hdone hawaited
    rw [hpeers, hp]
    simp only [if_true, Option.toList_some, List.singleton_append, List.length_cons]
    refine ⟨List.nodup_cons.mpr ⟨hnew, h.voters⟩, fun q hq => ?_, by rw [h.votes]; omega⟩
    rcases List.mem_cons.mp hq with rfl | hq
    · refine ⟨handle - s.base, hp, ?_⟩
      rw [hbase]
      exact h.distinct.not_mem_erase
    · exact hkept q hq

/-- Reading a vote in an election. -/
theorem Progress.voteAnswered {fates : List Fate} {poll : Poll} {handle : ℕ} {resp : RequestVoteResponse}
    (hpeers : (id :: peers).Nodup) (h : s.Sound id peers) (hmain : s.server.main = .polling poll)
    (hawaited : handle ∈ poll.awaiting) :
    Progress id peers s {
      server := (s.server.carryOut fates (s.server.planVoteAnswered poll handle resp)).1
      base := s.base
      granted := s.grantedBy handle resp } := by
  have hpoll := h.polls poll hmain
  obtain ⟨hnodup, hcounted, hvotes⟩ :=
    hpoll.read h.configured.peers (List.nodup_cons.mp hpeers).2 hawaited resp
  refine Server.perform_rule (P := fun result => Progress id peers s
      { server := result.1, base := s.base, granted := s.grantedBy handle resp })
    ((standing_handleVoteResponse poll.votes poll.majority resp).and
      (h.configured.handleVoteResponse poll.votes poll.majority resp))
    (Or.inl trivial) ?_ fun _ disk hlost => .reboot hpeers h hlost.2 _ _
  rintro ⟨node, count⟩ disk ⟨hstanding, hconfigured, hcount⟩
  rcases hstanding with ⟨hchange, _, hgoing⟩ | ⟨hwins, hover⟩
  · refine ⟨⟨hconfigured, ?_⟩, countsMajorities_of_change hpeers hconfigured hchange⟩
    intro poll' hpoll'
    cases count with
    | none => cases hpoll'
    | some votes =>
      cases hpoll'
      cases hgoing votes rfl
      exact ⟨hpoll.distinct.erase handle, fun k hk => hpoll.called k (List.mem_of_mem_erase hk), hnodup, hcounted,
        (hcount votes rfl).trans hvotes, hpoll.majority⟩
  · have hover' : count = none := hover
    subst hover'
    refine ⟨⟨hconfigured, fun poll' hpoll' => by cases hpoll'⟩, fun _ _ => ?_,
      fun hleads => absurd (hwins.candidate.symm.trans hleads) nofun⟩
    have hnode : node = s.server.node.becomeLeader := hwins.node
    change node.config.HasMajority (node.id :: s.grantedBy handle resp)
    rw [show node.id = id from hconfigured.self]
    refine hasMajority hpeers hconfigured.config hnodup ?_ ?_
    · intro v hv
      obtain ⟨k, hk, _⟩ := hcounted v hv
      exact List.mem_of_getElem? hk
    · rw [← hvotes, show node.quorumSize = s.server.node.quorumSize by rw [hnode]; rfl,
        ← hpoll.majority hwins.candidate]
      exact hwins.majority

/-- Opening an election. -/
theorem Progress.openPoll {fresh : ℕ} {req : RequestVoteRequest} (h : s.Sound id peers) :
    Progress id peers s { server := (Server.onDisk s.server.disk (s.server.stepOpenPoll fresh req)).1, base := fresh, granted := [] } := by
  refine ⟨⟨h.configured, ?_⟩, fun hnot hleads => absurd hleads hnot,
    fun _ _ hlt => absurd hlt (Int.lt_irrefl _)⟩
  intro poll hpoll
  cases hpoll
  refine ⟨List.nodup_range', ?_, List.nodup_nil, nofun, rfl, fun _ => rfl⟩
  intro handle hhandle
  rw [← h.configured.peers]
  simp only [List.mem_range'_1] at hhandle
  exact hhandle

/-- The answer of a handler. -/
theorem Progress.handle {R : Type} {fates : List Fate} {p : Section (Node × Except RaftError R)}
    (wrap : R → Reply) (hpeers : (id :: peers).Nodup) (h : s.Sound id peers)
    (hstanding : p.Ensures True (fun _ => True) (fun r _ => HealthyChange s.server.node r.1) s.server.disk)
    (hconfigured : p.Ensures True (DiskConfigured (ListsAll id peers))
      (fun r d' => Configured (ListsAll id peers) id peers r.1 d') s.server.disk) :
    Progress id peers s { s with server := (s.server.perform fates p fun r disk => Server.onDisk disk (s.server.handled wrap r)).1 } := by
  refine .perform hpeers h (hstanding.mono (fun _ h => h) fun _ _ hr => hr.change) hconfigured ?_ ?_ ?_
  · rintro ⟨node, _ | _⟩ disk <;> rfl
  · rintro ⟨node, _ | _⟩ disk <;> rfl
  · rintro ⟨node, _ | _⟩ disk <;> exact Or.inl rfl

/-- A step outside the sections that leaves the office alone. -/
theorem Progress.quiet (hpeers : (id :: peers).Nodup) (h : s.Sound id peers) {sv' : Server}
    (hdisk : sv'.disk = s.server.disk) (hoffice : sv'.node.office = s.server.node.office)
    (hmain : sv'.main = s.server.main ∨ ∀ poll, sv'.main ≠ .polling poll) :
    Progress id peers s { s with server := sv' } := by
  simp only [Node.office, Prod.mk.injEq] at hoffice
  obtain ⟨hid, hnames, hsnapshot, hconfig, hrole, hcommit, hdegraded⟩ := hoffice
  refine .change hpeers h ?_ (.kept hrole hcommit hconfig hdegraded) hmain
  rw [hdisk]
  exact h.configured.keep hid hnames hconfig hsnapshot

/-- Every step of a sound state. -/
theorem Progress.step (hpeers : (id :: peers).Nodup) (h : s.Sound id peers)
    (hinstalls : ∀ req ∈ drive.input.installs, Offers (ListsAll id peers) req.config)
    (hmove : s.server.Move drive.fresh drive.fates drive.input result) :
    Progress id peers s (s.after drive result.1) := by
  obtain ⟨fresh, fates, input⟩ := drive
  have hconfigured := h.configured
  cases hmove with
  | restart => exact .reboot hpeers h hconfigured.disk _ _
  | dispatch =>
    change Progress id peers s { s with server := (Server.onDisk s.server.disk (s.server.dispatch, {})).1 }
    unfold NodeProcess.dispatch
    split
    · exact .quiet hpeers h rfl rfl (Or.inr fun _ hpoll => by cases hpoll)
    · split <;> exact .quiet hpeers h rfl rfl (Or.inr fun _ hpoll => by cases hpoll)
  | electionTimeout =>
    exact ⟨⟨hconfigured.keep rfl rfl rfl rfl, fun _ hpoll => by cases hpoll⟩,
      ⟨(fun _ hleads => by cases hleads), fun _ hleads => by cases hleads⟩⟩
  | startElection =>
    refine .perform (f := Prod.fst) hpeers h (standing_startElection.mono (fun _ h => h) fun _ _ hr => hr.1)
      (hconfigured.startElection.mono (fun _ h => h) fun _ _ hr => hr.1) (fun _ _ => rfl) (fun _ _ => rfl) ?_
    rintro ⟨node, _ | req⟩ disk <;> exact Or.inr fun _ hpoll => by cases hpoll
  | openPoll => exact .openPoll h
  | voteAnswered hmain hawaited => exact .voteAnswered hpeers h hmain hawaited
  | visit =>
    refine .perform (f := Prod.fst) hpeers h
      ((standing_installSnapshotRequestForPeer _).mono (fun _ h => h) fun _ _ hr => hr.1.change)
      ((hconfigured.installSnapshotRequestForPeer _).mono (fun _ h => h) fun _ _ hr => hr.1) ?_ ?_ ?_
    · rintro ⟨node, _ | _ | req⟩ disk <;> rfl
    · rintro ⟨node, _ | _ | req⟩ disk <;> rfl
    · rintro ⟨node, _ | _ | req⟩ disk <;> exact Or.inr fun _ hpoll => by cases hpoll
  | appendTurn =>
    refine .perform (f := Prod.fst) hpeers h
      ((standing_appendEntriesRequestForPeer _).mono (fun _ h => h) fun _ _ hr => hr.1.change)
      (hconfigured.appendEntriesRequestForPeer _) ?_ ?_ ?_
    · rintro ⟨node, _ | _ | req⟩ disk <;> rfl
    · rintro ⟨node, _ | _ | req⟩ disk <;> rfl
    · rintro ⟨node, _ | _ | req⟩ disk <;> exact Or.inr fun _ hpoll => by cases hpoll
  | appendAnswered =>
    exact .perform (f := Prod.fst) hpeers h
      ((standing_handleAppendEntriesResponse _ _ _).mono (fun _ h => h) fun _ _ hr => hr.1)
      (hconfigured.handleAppendEntriesResponse _ _ _) (fun _ _ => rfl) (fun _ _ => rfl) fun _ _ => Or.inl rfl
  | installAnswered =>
    exact .perform (f := fun n => n) hpeers h
      ((standing_handleInstallSnapshotResponse _ _ _).mono (fun _ h => h) fun _ _ hr => hr.1)
      (hconfigured.handleInstallSnapshotResponse _ _ _) (fun _ _ => rfl) (fun _ _ => rfl) fun _ _ => Or.inl rfl
  | receive req =>
    cases req with
    | vote req =>
      exact .handle _ hpeers h (standing_handleRequestVote req) (hconfigured.handleRequestVote req)
    | append req =>
      exact .handle _ hpeers h (standing_handleAppendEntries req) (hconfigured.handleAppendEntries req)
    | install req =>
      exact .handle _ hpeers h (standing_handleInstallSnapshot req)
        (hconfigured.handleInstallSnapshot (hinstalls req rfl))
  | startCommand cmd =>
    exact .perform (f := Prod.fst) hpeers h
      ((standing_startCommand cmd).mono (fun _ h => h) fun _ _ hr => hr.1) (hconfigured.startCommand cmd)
      (fun _ _ => rfl) (fun _ _ => rfl) fun _ _ => Or.inl rfl
  | takeSnapshot index data =>
    refine .perform (f := Prod.fst) hpeers h
      ((standing_takeSnapshot index data).mono (fun _ h => h) fun _ _ hr => hr.change)
      (hconfigured.takeSnapshot index data) ?_ ?_ ?_
    · rintro ⟨node, _ | _⟩ disk <;> rfl
    · rintro ⟨node, _ | _⟩ disk <;> rfl
    · rintro ⟨node, _ | _⟩ disk <;> exact Or.inl rfl
  | pickEntry =>
    exact .perform (f := Prod.fst) hpeers h (standing_nextToApply.mono (fun _ h => h) fun _ _ hr => hr.change)
      hconfigured.nextToApply (fun _ _ => rfl) (fun _ _ => rfl) fun _ _ => Or.inl rfl
  | signal =>
    change Progress id peers s { s with server := (Server.onDisk s.server.disk (s.server.stepSignal _ _)).1 }
    simp only [NodeProcess.stepSignal]
    split <;> split <;> exact .quiet hpeers h rfl rfl (Or.inl rfl)
  | pollTimeout | startRoundNotified | startRound =>
    exact .quiet hpeers h rfl rfl (Or.inr fun _ hpoll => by cases hpoll)
  | electionReset | callFailed | finish | notify | wakeApply | drain | sendSnapshot | recordSnapshot | sendEntry =>
    exact .quiet hpeers h rfl rfl (Or.inl rfl)

end Canvass

/-- In runs in which every configuration lists the node and its peers, reachable states are sound. -/
theorem sound_of_reachable {s : Canvass} (run : CanvassReachable StoredListsAll InstallsListAll s) :
    ∃ id peers, (id :: peers).Nodup ∧ s.Sound id peers := by
  refine run.invariant (P := fun s => ∃ id peers, (id :: peers).Nodup ∧ s.Sound id peers) ?_ ?_
  · rintro s ⟨id, given, disk, hnodup, ⟨hconfig, hsnapshot⟩, rfl⟩
    have hself : id ∉ normalizePeers id given := by simp [normalizePeers]
    have hnew : Configured (ListsAll id (normalizePeers id given)) id (normalizePeers id given)
        (newNode id given disk) disk := configured_newNode (fun p hp => hp) ⟨hconfig, hsnapshot⟩
    exact ⟨id, normalizePeers id given, List.nodup_cons.mpr ⟨hself, hnodup.filter _⟩,
      hnew.keep rfl rfl rfl rfl, nofun⟩
  · rintro s s' _ ⟨id, peers, hpeers, h⟩ ⟨drive, hinstalls, hdrive⟩
    obtain ⟨after, hafter, rfl⟩ := Option.map_eq_some_iff.mp hdrive
    obtain ⟨result, hstep, rfl⟩ := Option.map_eq_some_iff.mp hafter
    unfold InstallsListAll at hinstalls
    rw [h.configured.self, h.configured.peers] at hinstalls
    exact ⟨id, peers, hpeers, (Canvass.Progress.step hpeers h hinstalls (.of_step hstep)).sound⟩

/-- **Counted quorums are majorities.** If every non-empty configuration that is stored at first or comes
with a snapshot lists the node and all its peers, then in every run, with any faults of storage, each
election won and each commit made has counted a strict majority of the distinct members. -/
theorem counted_quorums_are_majorities {s s' : Canvass} {drive : Drive}
    (run : CanvassReachable StoredListsAll InstallsListAll s) (hinstalls : InstallsListAll s drive)
    (hstep : s.step drive = some s') : s.CountsMajorities s' := by
  obtain ⟨id, peers, hpeers, h⟩ := sound_of_reachable run
  obtain ⟨after, hafter, rfl⟩ := Option.map_eq_some_iff.mp hstep
  obtain ⟨result, hresult, rfl⟩ := Option.map_eq_some_iff.mp hafter
  unfold InstallsListAll at hinstalls
  rw [h.configured.self, h.configured.peers] at hinstalls
  exact (Canvass.Progress.step hpeers h hinstalls (.of_step hresult)).counts

/-- Storage to which only a configuration has been written. -/
def storedConfig (members : List String) : PersistentState :=
  { PersistentState.empty with hard := { PersistentState.empty.hard with config := { members := members } } }

/-- Node `a` over storage that holds a configuration, with peers `b` and `c`. -/
def firstCanvass (members : List String) : Canvass where
  server := .boot "a" ["a", "b", "c"] (storedConfig members)
  base := 0
  granted := []

/-- The drives with which a new node asks for votes. -/
def askForVotes : List Drive :=
  [.of .dispatch, .of .electionTimeout, .of .dispatch, .of .startElection, .of .openPoll]

/-- Peer `b` grants its vote in term 1. -/
def voteOfB : Drive :=
  .of (.voteAnswered 0 { term := 1, voteGranted := true })

/-- With the configuration of its three members, `a` wins with the vote of `b` and so with a majority. -/
theorem counted_quorums_are_majorities_of_three :
    ∃ s s', CanvassReachable StoredListsAll InstallsListAll s ∧ s.step voteOfB = some s' ∧
      s'.server.node.role = .leader ∧ s.CountsMajorities s' := by
  have hrun : (execute InstallsListAll Canvass.step (firstCanvass ["a", "b", "c"]) askForVotes).map
      (fun s => (decide (InstallsListAll s voteOfB),
        (s.step voteOfB).map fun s' => s'.server.node.role)) = some (true, some .leader) := by
    decide +kernel
  obtain ⟨s, hs, hfacts⟩ : ∃ s, CanvassReachable StoredListsAll InstallsListAll s ∧
      (decide (InstallsListAll s voteOfB), (s.step voteOfB).map fun s' => s'.server.node.role) =
        (true, some .leader) :=
    exists_reachable_of_execute ⟨"a", ["a", "b", "c"], _, by decide, by decide, rfl⟩ hrun
  obtain ⟨hinstalls, hleads⟩ := Prod.mk.inj hfacts
  obtain ⟨s', hstep, hrole⟩ := Option.map_eq_some_iff.mp hleads
  exact ⟨s, s', hs, hstep, hrole, counted_quorums_are_majorities hs (of_decide_eq_true hinstalls) hstep⟩

/-- With a stored configuration of `a`, `x` and `y`, node `a` wins with the vote of `b`, which is not in
the configuration. -/
theorem counted_quorum_is_no_majority :
    ∃ s s', CanvassReachable (fun _ _ _ => True) (fun _ _ => True) s ∧ s.step voteOfB = some s' ∧
      s.server.node.role = .candidate ∧ s'.server.node.role = .leader ∧
      s'.server.node.config.members = ["a", "x", "y"] ∧ s'.granted = ["b"] ∧
      ¬s'.server.node.config.HasMajority ["a", "b"] := by
  have hrun : (execute (fun _ _ => True) Canvass.step (firstCanvass ["a", "x", "y"]) askForVotes).map
      (fun s => (s.server.node.role, (s.step voteOfB).map fun s' =>
        (s'.server.node.role, s'.server.node.config.members, s'.granted))) =
      some (.candidate, some (.leader, ["a", "x", "y"], ["b"])) := by
    decide +kernel
  obtain ⟨s, hs, hfacts⟩ : ∃ s, CanvassReachable (fun _ _ _ => True) (fun _ _ => True) s ∧
      (s.server.node.role, (s.step voteOfB).map fun s' =>
        (s'.server.node.role, s'.server.node.config.members, s'.granted)) =
      (.candidate, some (.leader, ["a", "x", "y"], ["b"])) :=
    exists_reachable_of_execute ⟨"a", ["a", "b", "c"], _, by decide, trivial, rfl⟩ hrun
  obtain ⟨hstands, hwins⟩ := Prod.mk.inj hfacts
  obtain ⟨s', hstep, hafter⟩ := Option.map_eq_some_iff.mp hwins
  simp only [Prod.mk.injEq] at hafter
  refine ⟨s, s', hs, hstep, hstands, hafter.1, hafter.2.1, hafter.2.2, ?_⟩
  have hconfig : s'.server.node.config = { members := ["a", "x", "y"] } :=
    congrArg ClusterConfig.mk hafter.2.1
  rw [hconfig]
  decide

end ConsensusLab.Raft
