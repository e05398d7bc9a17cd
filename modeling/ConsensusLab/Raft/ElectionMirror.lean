import ConsensusLab.Raft.Wiring
import ConsensusLab.Foundation.Election

/-!
# The election protocol behind the hard state

The stored term and vote of a node are its term and ballot in the election protocol of
the foundation. Memory agrees with the disk unless the node is degraded, and then it
can only be ahead of it. Each section is followed by election steps of its node alone,
whatever becomes of its storage calls; where the process is lost, the disk is still the
mirror of some state reached on the way.
-/

namespace ConsensusLab.Raft

open Foundation

/-- The election that the main loop is conducting. -/
def MainLoop.campaign : MainLoop → Option RequestVoteRequest
  | .opening req => some req
  | .polling poll => some poll.request
  | _ => none

/-- The main loop is in `runFollower` or `runCandidate`. -/
def MainLoop.canvassing : MainLoop → Bool
  | .following | .starting | .opening _ | .polling _ => true
  | _ => false

/-- What an election state says about one participant. -/
def electionView (e : ElectionState String Int) (v : String) : Int × Standing × (Int → Option String) :=
  (e.term v, e.standing v, fun t => e.ballot t v)

/-- Election steps of one node. -/
abbrev ElectionPath (m : Membership) (id : String) :=
  LocalPath (@ElectionStep String Int _ _ m.quorums) electionView id

/-- The ballot that a `votedFor` field stands for. -/
def ballotOf (vote : String) : Option String :=
  if vote = "" then none else some vote

/-- The stored term and vote are those of the election protocol. -/
structure DiskMirror (e : ElectionState String Int) (id : String) (d : PersistentState) : Prop where
  term : e.term id = d.hard.currentTerm
  ballot : e.ballot (e.term id) id = ballotOf d.hard.votedFor

/-- The disk mirrors a state that the node can have reached. -/
def Recoverable (m : Membership) (e : ElectionState String Int) (id : String) (d : PersistentState) : Prop :=
  ∃ e', ElectionPath m id e e' ∧ DiskMirror e' id d

/-- Memory and disk mirror the election protocol. -/
structure HardMirror (e : ElectionState String Int) (id : String) (n : Node) (d : PersistentState) :
    Prop where
  disk : DiskMirror e id d
  memory : n.degraded = false → n.currentTerm = d.hard.currentTerm ∧ n.votedFor = d.hard.votedFor
  ahead : d.hard.currentTerm ≤ n.currentTerm
  leader : n.role = .leader →
    n.currentTerm = d.hard.currentTerm ∧ n.votedFor = d.hard.votedFor ∧ e.standing id = .leader

/-- The node has become a follower, or has kept its role in its term. -/
def Subsides (id : String) (n : Node) (e : ElectionState String Int) (n' : Node)
    (e' : ElectionState String Int) : Prop :=
  n'.role = .follower ∨ (n'.role = n.role ∧ n'.currentTerm = n.currentTerm ∧
    (n.role = .candidate → n'.degraded = n.degraded) ∧ e'.standing id = e.standing id)

/-- What a section that wins no election leaves behind. -/
def Mirrored (m : Membership) (e : ElectionState String Int) (id : String) (n n' : Node)
    (d : PersistentState) : Prop :=
  ∃ e', ElectionPath m id e e' ∧ HardMirror e' id n' d ∧ Subsides id n e n' e'

variable {m : Membership} {e e' : ElectionState String Int} {id : String} {n n' : Node}
  {d d' : PersistentState}

/-- Two sections in a row. -/
theorem Subsides.trans {n'' : Node} {e'' : ElectionState String Int} (h : Subsides id n e n' e')
    (h' : Subsides id n' e' n'' e'') : Subsides id n e n'' e'' := by
  rcases h' with hf | ⟨hrole', hterm', hdeg', hst'⟩
  · exact Or.inl hf
  · rcases h with hf | ⟨hrole, hterm, hdeg, hst⟩
    · exact Or.inl (hrole'.trans hf)
    · exact Or.inr ⟨hrole'.trans hrole, hterm'.trans hterm,
        fun hc => (hdeg' (hrole.trans hc)).trans (hdeg hc), hst'.trans hst⟩

/-- Only four fields in memory and the stored hard state matter. -/
theorem HardMirror.keep (h : HardMirror e id n d) (hterm : n'.currentTerm = n.currentTerm)
    (hvote : n'.votedFor = n.votedFor) (hdegraded : n'.degraded = n.degraded) (hrole : n'.role = n.role)
    (hhard : d'.hard = d.hard) : HardMirror e id n' d' where
  disk := ⟨by rw [hhard, h.disk.term], by rw [hhard, h.disk.ballot]⟩
  memory hd := by
    rw [hterm, hvote, hhard]
    exact h.memory (hdegraded ▸ hd)
  ahead := by rw [hterm, hhard]; exact h.ahead
  leader hl := by
    rw [hterm, hvote, hhard]
    exact h.leader (hrole ▸ hl)

/-- A section that touches none of them. -/
theorem HardMirror.mirrored (h : HardMirror e id n d) (hterm : n'.currentTerm = n.currentTerm)
    (hvote : n'.votedFor = n.votedFor) (hdegraded : n'.degraded = n.degraded) (hrole : n'.role = n.role)
    (hhard : d'.hard = d.hard) : Mirrored m e id n n' d' :=
  ⟨e, .refl e, h.keep hterm hvote hdegraded hrole hhard,
    Or.inr ⟨hrole, hterm, fun _ => hdegraded, rfl⟩⟩

/-- Nothing at all happens. -/
theorem HardMirror.unchanged (h : HardMirror e id n d) : Mirrored m e id n n d :=
  h.mirrored rfl rfl rfl rfl rfl

/-- Becoming a follower without any other change. -/
theorem HardMirror.follow (h : HardMirror e id n d) : HardMirror e id n.asFollower d where
  disk := h.disk
  memory := h.memory
  ahead := h.ahead
  leader := nofun

/-- Saving a term and vote that are already stored. -/
theorem HardMirror.save (h : HardMirror e id n d) (hmemory : n.currentTerm = d.hard.currentTerm ∧
    n.votedFor = d.hard.votedFor) (hterm : n'.currentTerm = n.currentTerm)
    (hvote : n'.votedFor = n.votedFor) (hrole : n'.role = n.role) (hhard : d'.hard = n'.hardState) :
    HardMirror e id n' d' where
  disk := by
    refine ⟨?_, ?_⟩
    · rw [hhard, h.disk.term]
      exact hmemory.1.symm.trans hterm.symm
    · rw [hhard, h.disk.ballot]
      exact congrArg ballotOf (hmemory.2.symm.trans hvote.symm)
  memory _ := by rw [hhard]; exact ⟨rfl, rfl⟩
  ahead := by rw [hhard]; exact le_refl _
  leader hl := by
    rw [hhard]
    exact ⟨rfl, rfl, (h.leader (hrole ▸ hl)).2.2⟩

/-- The disk is recoverable as long as its hard state stays. -/
theorem HardMirror.recoverable (h : HardMirror e id n d) (hhard : d'.hard = d.hard) :
    Recoverable m e id d' :=
  ⟨e, .refl e, (h.keep rfl rfl rfl rfl hhard).disk⟩

/-- Moving to a later term without a vote, and saving that. -/
theorem HardMirror.observe (hinv : ElectionInvariant m.quorums e) (h : HardMirror e id n d)
    (hterm : n.currentTerm < n'.currentTerm) (hvote : n'.votedFor = "") (hrole : n'.role ≠ .leader)
    (hhard : d'.hard.currentTerm = n'.currentTerm ∧ d'.hard.votedFor = n'.votedFor) :
    ∃ e', ElectionPath m id e e' ∧ HardMirror e' id n' d' := by
  have hlater : e.term id < n'.currentTerm := by
    rw [h.disk.term]
    exact lt_of_le_of_lt h.ahead hterm
  refine ⟨_, .single (.observe e id n'.currentTerm hlater) fun w hw => ?_, ?_, fun _ => ?_, ?_, ?_⟩
  · simp only [electionView, Function.update_of_ne hw]
  · refine ⟨?_, ?_⟩
    · rw [hhard.1]
      exact Function.update_self ..
    · change e.ballot (Function.update e.term id n'.currentTerm id) id = _
      rw [Function.update_self, hinv.ballot_above hlater, hhard.2, hvote]
      rfl
  · exact ⟨hhard.1.symm, hhard.2.symm⟩
  · rw [hhard.1]
  · exact fun hl => absurd hl hrole

/-- A disk reached from a later election state. -/
theorem Recoverable.after (hpath : ElectionPath m id e e') (h : Recoverable m e' id d) :
    Recoverable m e id d := by
  obtain ⟨e'', hpath', hmirror⟩ := h
  exact ⟨e'', hpath.trans hpath', hmirror⟩

/-- Casting a vote that is still open, or repeating it, and saving that. -/
theorem HardMirror.grant (h : HardMirror e id n d) (hdeg : n.degraded = false) {candidate : String}
    (hcandidate : candidate ≠ "") (hopen : n.votedFor = "" ∨ n.votedFor = candidate) :
    ∃ e', ElectionPath m id e e' ∧
      HardMirror e' id { n with votedFor := candidate }
        { d with hard := { n with votedFor := candidate }.hardState } ∧
      Subsides id n e { n with votedFor := candidate } e' ∧
      e'.ballot n.currentTerm id = some candidate := by
  obtain ⟨hterm, hvote⟩ := h.memory hdeg
  have hself : e.term id = n.currentTerm := h.disk.term.trans hterm.symm
  have hballot : e.ballot (e.term id) id = none ∨ e.ballot (e.term id) id = some candidate := by
    rw [h.disk.ballot, ← hvote]
    rcases hopen with hnone | hsame
    · exact Or.inl (if_pos hnone)
    · rw [hsame]
      exact Or.inr (if_neg hcandidate)
  have hcast : setAt e.ballot (e.term id) id (some candidate) n.currentTerm id = some candidate := by
    rw [← hself, setAt_self]
  refine ⟨_, .single (.grant e id candidate hballot) fun w hw => ?_, ?_, ?_, hcast⟩
  · simp only [electionView, Prod.mk.injEq, true_and]
    funext t
    exact setAt_of_ne _ _ fun htw => hw htw.2
  · refine ⟨⟨hself, ?_⟩, fun _ => ⟨rfl, rfl⟩, le_refl _, fun hl => ⟨rfl, rfl, (h.leader hl).2.2⟩⟩
    exact (setAt_self ..).trans (if_neg hcandidate).symm
  · exact Or.inr ⟨rfl, rfl, fun _ => rfl, rfl⟩

/-- Deciding on a vote. -/
theorem HardMirror.castVote (h : HardMirror e id n d) (hdeg : n.degraded = false)
    {req : RequestVoteRequest} (hcandidate : req.candidateID ≠ "") :
    (n.castVote req).Ensures True (Recoverable m e id)
      (fun r d' => ∃ e', ElectionPath m id e e' ∧ HardMirror e' id r.1 d' ∧ Subsides id n e r.1 e' ∧
        ∀ resp, r.2 = .ok resp → resp.voteGranted = true →
          e'.ballot n.currentTerm id = some req.candidateID) d := by
  have hstay : Subsides id n e n e := Or.inr ⟨rfl, rfl, fun _ => rfl, rfl⟩
  refine Node.castVote_rule ?_ fun hopen _ => ⟨fun _ => ⟨h.recoverable rfl, ?_⟩, ?_⟩
  · refine ⟨e, .refl e, h, hstay, fun resp hresp hgranted => ?_⟩
    cases hresp
    cases hgranted
  · exact ⟨e, .refl e, h, hstay, nofun⟩
  · obtain ⟨e', hpath, hmirror, hsub, hballot⟩ := h.grant (m := m) hdeg hcandidate hopen
    exact ⟨e', hpath, hmirror.keep rfl rfl rfl rfl rfl, hsub, fun _ _ _ => hballot⟩

/-- Handling a vote request: a granted vote is a ballot. -/
theorem HardMirror.handleRequestVote (hinv : ElectionInvariant m.quorums e) (h : HardMirror e id n d)
    {req : RequestVoteRequest} (hcandidate : req.candidateID ≠ "") :
    (n.handleRequestVote req).Ensures True (Recoverable m e id)
      (fun r d' => ∃ e', ElectionPath m id e e' ∧ HardMirror e' id r.1 d' ∧ Subsides id n e r.1 e' ∧
        ∀ resp, r.2 = .ok resp → resp.voteGranted = true →
          e'.ballot req.term id = some req.candidateID) d := by
  have hstay : Subsides id n e n e := Or.inr ⟨rfl, rfl, fun _ => rfl, rfl⟩
  refine Node.handleRequestVote_rule (fun _ => ⟨e, .refl e, h, hstay, nofun⟩) (fun _ _ => ?_)
    (fun hdeg hterm => ⟨fun _ => ⟨h.recoverable rfl, e, .refl e, h, hstay, nofun⟩, ?_⟩) (fun hdeg hterm => ?_)
  · refine ⟨e, .refl e, h, hstay, fun resp hresp hgranted => ?_⟩
    cases hresp
    cases hgranted
  · obtain ⟨e₁, hpath, hmirror⟩ : ∃ e', ElectionPath m id e e' ∧ HardMirror e' id
        { n.adoptTerm req.term with role := .follower }
        { d with hard := (n.adoptTerm req.term).hardState } :=
      h.observe hinv hterm rfl nofun ⟨rfl, rfl⟩
    refine (hmirror.castVote hdeg hcandidate).mono (fun _ => .after hpath) ?_
    rintro r d' ⟨e₂, hpath', hmirror', hsub, hballot⟩
    exact ⟨e₂, hpath.trans hpath', hmirror', Subsides.trans (Or.inl rfl) hsub, hballot⟩
  · rw [hterm]
    exact h.castVote hdeg hcandidate

/-- Moving to the term of a leader's request and following it. -/
theorem HardMirror.adopt (hinv : ElectionInvariant m.quorums e) (h : HardMirror e id n d) {term : Int}
    (hterm : n.currentTerm < term) :
    ∃ e', ElectionPath m id e e' ∧
      HardMirror e' id (n.adoptTerm term).asFollower { d with hard := (n.adoptTerm term).hardState } :=
  h.observe hinv hterm rfl nofun ⟨rfl, rfl⟩

/-- Handling entries in the current term. -/
theorem HardMirror.appendFromLeader (h : HardMirror e id n.asFollower d) (hdeg : n.degraded = false)
    (req : AppendEntriesRequest) :
    (n.appendFromLeader req).Ensures True (Recoverable m e id)
      (fun r d' => HardMirror e id r.1 d' ∧ r.1.role = .follower) d := by
  refine Node.appendFromLeader_rule (fun _ _ => ⟨h, rfl⟩) fun _ => ?_
  have hmerge : (n.asFollower.mergeEntries (req.prevLogIndex + 1) req.entries).Ensures True
      (Recoverable m e id)
      (fun r d' => HardMirror e id r.1 d' ∧ r.1.role = .follower ∧ r.1.degraded = false) d :=
    Node.mergeEntries_rule (fun _ => ⟨h, rfl, hdeg⟩)
      (fun _ _ _ _ _ _ _ => ⟨fun _ => ⟨h.recoverable rfl, h, rfl, hdeg⟩,
        h.keep rfl rfl rfl rfl rfl, rfl, hdeg⟩)
      (fun _ _ _ _ _ _ _ _ => ⟨fun _ => ⟨h.recoverable rfl, h, rfl, hdeg⟩,
        fun _ => ⟨h.recoverable rfl, h.keep rfl rfl rfl rfl rfl, rfl, hdeg⟩,
        h.keep rfl rfl rfl rfl rfl, rfl, hdeg⟩)
  refine hmerge.mono (fun _ h => h) ?_
  rintro merged d₁ ⟨hmirror, hrole, hdeg'⟩
  refine ⟨fun _ _ => ⟨hmirror, hrole⟩, fun _ => Node.followCommit_rule
    (fun _ => ⟨fun _ _ => ⟨hmirror, hrole⟩, fun _ => ⟨hmirror, hrole⟩⟩) fun _ => ⟨fun _ => ?_, ?_⟩⟩
  · have hkept : HardMirror e id { merged.1 with
        commitIndex := min req.leaderCommit merged.1.lastLogIndex } d₁ := hmirror.keep rfl rfl rfl rfl rfl
    exact ⟨hmirror.recoverable rfl, fun _ _ => ⟨hkept, hrole⟩, fun _ => ⟨hkept, hrole⟩⟩
  · have hsaved : HardMirror e id
        { merged.1 with commitIndex := min req.leaderCommit merged.1.lastLogIndex }.notifyApply { d₁ with
          hard := { merged.1 with commitIndex := min req.leaderCommit merged.1.lastLogIndex }.hardState } :=
      hmirror.save (hmirror.memory hdeg') rfl rfl rfl rfl
    exact ⟨fun _ _ => ⟨hsaved, hrole⟩, fun _ => ⟨hsaved, hrole⟩⟩

/-- Handling an AppendEntries request. -/
theorem HardMirror.handleAppendEntries (hinv : ElectionInvariant m.quorums e) (h : HardMirror e id n d)
    (req : AppendEntriesRequest) :
    (n.handleAppendEntries req).Ensures True (Recoverable m e id)
      (fun r d' => Mirrored m e id n r.1 d') d := by
  refine Node.handleAppendEntries_rule (fun _ => h.unchanged) (fun _ _ => h.unchanged)
    (fun hdeg hterm => ⟨fun _ => ⟨h.recoverable rfl, h.unchanged⟩, ?_⟩) (fun hdeg _ => ?_)
  · obtain ⟨e₁, hpath, hmirror⟩ := h.adopt hinv hterm
    refine (hmirror.appendFromLeader hdeg req).mono (fun _ => .after hpath) ?_
    exact fun r d' hr => ⟨e₁, hpath, hr.1, Or.inl hr.2⟩
  · refine (h.follow.appendFromLeader hdeg req).mono (fun _ h => h) ?_
    exact fun r d' hr => ⟨e, .refl e, hr.1, Or.inl hr.2⟩

/-- Handling a snapshot in the current term. -/
theorem HardMirror.installFromLeader (h : HardMirror e id n.asFollower d) (hdeg : n.degraded = false)
    (req : InstallSnapshotRequest) :
    (n.installFromLeader req).Ensures True (Recoverable m e id)
      (fun r d' => HardMirror e id r.1 d' ∧ r.1.role = .follower) d := by
  refine Node.installFromLeader_rule (fun _ => ⟨h, rfl⟩) fun _ => ⟨fun _ => ⟨h.recoverable rfl, h, rfl⟩, ?_⟩
  have hkept : ∀ {d'}, d'.hard = d.hard →
      HardMirror e id (n.asFollower.adoptSnapshot req.snapshot).notifyApply d' :=
    fun hhard => h.keep rfl rfl rfl rfl hhard
  have hsaved : ∀ {d'}, d'.hard = (n.asFollower.adoptSnapshot req.snapshot).hardState →
      HardMirror e id (n.asFollower.adoptSnapshot req.snapshot).notifyApply d' :=
    fun hhard => h.save (h.memory hdeg) rfl rfl rfl hhard
  exact Node.applySnapshot_rule
    ⟨fun _ => ⟨h.recoverable rfl, hkept rfl, rfl⟩, hkept rfl, rfl⟩
    fun _ => ⟨fun _ => ⟨(hsaved rfl).recoverable rfl, hsaved rfl, rfl⟩, hsaved rfl, rfl⟩

/-- Handling an InstallSnapshot request. -/
theorem HardMirror.handleInstallSnapshot (hinv : ElectionInvariant m.quorums e) (h : HardMirror e id n d)
    (req : InstallSnapshotRequest) :
    (n.handleInstallSnapshot req).Ensures True (Recoverable m e id)
      (fun r d' => Mirrored m e id n r.1 d') d := by
  refine Node.handleInstallSnapshot_rule (fun _ => h.unchanged) (fun _ _ => h.unchanged)
    (fun hdeg hterm => ⟨fun _ => ⟨h.recoverable rfl, h.unchanged⟩, ?_⟩) (fun hdeg _ => ?_)
  · obtain ⟨e₁, hpath, hmirror⟩ := h.adopt hinv hterm
    refine (hmirror.installFromLeader hdeg req).mono (fun _ => .after hpath) ?_
    exact fun r d' hr => ⟨e₁, hpath, hr.1, Or.inl hr.2⟩
  · refine (h.follow.installFromLeader hdeg req).mono (fun _ h => h) ?_
    exact fun r d' hr => ⟨e, .refl e, hr.1, Or.inl hr.2⟩

/-- Stepping down. -/
theorem HardMirror.stepDown (hinv : ElectionInvariant m.quorums e) (h : HardMirror e id n d) {term : Int}
    (hterm : n.currentTerm < term) :
    (n.stepDown term).Ensures True (Recoverable m e id) (fun n' d' => Mirrored m e id n n' d') d := by
  refine Node.stepDown_rule (fun _ => ⟨h.recoverable rfl, e, .refl e, ⟨h.disk, nofun, ?_, nofun⟩, Or.inl rfl⟩) ?_
  · exact le_of_lt (lt_of_le_of_lt h.ahead hterm)
  · obtain ⟨e₁, hpath, hmirror⟩ : ∃ e', ElectionPath m id e e' ∧
        HardMirror e' id (n.retired term) { d with hard := (n.retired term).hardState } :=
      h.observe hinv hterm rfl nofun ⟨rfl, rfl⟩
    exact ⟨e₁, hpath, hmirror, Or.inl rfl⟩

/-- Starting an election: a candidate that has saved its vote stands for election. -/
theorem HardMirror.startElection (h : HardMirror e id n d)
    (hid : n.id = id) (hname : id ≠ "") (hrole : n.role ≠ .leader) :
    n.startElection.Ensures True (Recoverable m e id)
      (fun r d' => ∃ e', ElectionPath m id e e' ∧ HardMirror e' id r.1 d' ∧ r.1.role ≠ .leader ∧
        (r.2 = none → r.1.role = .follower) ∧
        ∀ req, r.2 = some req → req.term = r.1.currentTerm ∧ r.1.role = n.role ∧
          r.1.degraded = n.degraded ∧ (n.role = .candidate → e'.standing id = .candidate)) d := by
  refine Node.startElection_rule (fun _ => ⟨h.recoverable rfl, e, .refl e,
    ⟨h.disk, nofun, h.ahead, nofun⟩, nofun, fun _ => rfl, nofun⟩) ?_
  have hlater : e.term id < n.currentTerm + 1 := by
    rw [h.disk.term]
    have := h.ahead
    omega
  let next : Standing := if n.role = .candidate then .candidate else .follower
  have hnext : next ≠ .leader := by
    simp only [next]
    split <;> nofun
  refine ⟨_, .single (.poll e id (n.currentTerm + 1) next hlater hnext) fun w hw => ?_, ?_, hrole, nofun,
    fun req hreq => ?_⟩
  · simp only [electionView, Function.update_of_ne hw, Prod.mk.injEq, true_and]
    funext t
    exact setAt_of_ne _ _ fun htw => hw htw.2
  · refine ⟨⟨Function.update_self .., ?_⟩, fun _ => ⟨rfl, rfl⟩, le_refl _, fun hl => absurd hl hrole⟩
    change setAt e.ballot (n.currentTerm + 1) id (some id)
      (Function.update e.term id (n.currentTerm + 1) id) id = ballotOf n.id
    rw [Function.update_self, setAt_self, hid]
    exact (if_neg hname).symm
  · cases hreq
    refine ⟨rfl, rfl, rfl, fun hc => ?_⟩
    change Function.update e.standing id next id = .candidate
    rw [Function.update_self]
    exact if_pos hc

/-- Advancing the commit index of a leader saves nothing new about the election. -/
theorem HardMirror.advanceCommitIndex (h : HardMirror e id n d) (hrole : n.role = .leader) :
    n.advanceCommitIndex.Ensures True (Recoverable m e id) (fun r d' => Mirrored m e id n r.1 d') d := by
  obtain ⟨hterm, hvote, hstanding⟩ := h.leader hrole
  have hcandidate : n.role ≠ .candidate := by
    rw [hrole]
    nofun
  refine Node.advanceCommitIndex_rule (fun _ => h.recoverable rfl) h.unchanged fun i _ => ⟨fun _ => ?_, ?_⟩
  · exact ⟨e, .refl e, ⟨h.disk, nofun, h.ahead, fun _ => ⟨hterm, hvote, hstanding⟩⟩,
      Or.inr ⟨rfl, rfl, fun hc => absurd hc hcandidate, rfl⟩⟩
  · exact ⟨e, .refl e, h.save ⟨hterm, hvote⟩ rfl rfl rfl rfl, Or.inr ⟨rfl, rfl, fun _ => rfl, rfl⟩⟩

/-- Processing an AppendEntries response. -/
theorem HardMirror.handleAppendEntriesResponse (hinv : ElectionInvariant m.quorums e)
    (h : HardMirror e id n d) (peerID : String) (req : AppendEntriesRequest) (resp : AppendEntriesResponse) :
    (n.handleAppendEntriesResponse peerID req resp).Ensures True (Recoverable m e id)
      (fun r d' => Mirrored m e id n r.1 d') d :=
  Node.handleAppendEntriesResponse_rule (fun hterm => h.stepDown hinv hterm) (fun _ _ => h.unchanged)
    (fun _ _ _ _ => h.mirrored rfl rfl rfl rfl rfl)
    (fun _ hrole _ _ => HardMirror.advanceCommitIndex
      (n := n.recordProgress peerID (req.prevLogIndex + req.entries.length))
      (h.keep rfl rfl rfl rfl rfl) hrole)

/-- Processing an InstallSnapshot response. -/
theorem HardMirror.handleInstallSnapshotResponse (hinv : ElectionInvariant m.quorums e)
    (h : HardMirror e id n d) (peerID : String) (req : InstallSnapshotRequest)
    (resp : InstallSnapshotResponse) :
    (n.handleInstallSnapshotResponse peerID req resp).Ensures True (Recoverable m e id)
      (fun n' d' => Mirrored m e id n n' d') d :=
  Node.handleInstallSnapshotResponse_rule (fun hterm => h.stepDown hinv hterm) (fun _ _ => h.unchanged)
    (fun _ _ _ => h.mirrored rfl rfl rfl rfl rfl)

/-- Starting a command. -/
theorem HardMirror.startCommand (h : HardMirror e id n d) (cmd : Bytes) :
    (n.startCommand cmd).Ensures True (Recoverable m e id) (fun r d' => Mirrored m e id n r.1 d') d := by
  refine Node.startCommand_rule (fun _ => h.unchanged) (fun _ _ _ => ⟨h.recoverable rfl, h.unchanged⟩)
    fun _ hrole => ?_
  have ha : HardMirror e id (n.appended cmd) { d with log := d.log ++ [n.newEntry cmd] } :=
    h.keep rfl rfl rfl rfl rfl
  refine (ha.advanceCommitIndex hrole).mono (fun _ h => h) fun moved d' hm => ?_
  obtain ⟨e', hpath, hmirror, hsub⟩ := hm
  change Mirrored m e id n (if moved.2 then moved.1.notifyApply else moved.1).signalReplicate d'
  split <;> exact ⟨e', hpath, hmirror.keep rfl rfl rfl rfl rfl, hsub⟩

/-- Compacting the log. -/
theorem HardMirror.takeSnapshot (h : HardMirror e id n d) (index : Int) (data : Bytes) :
    (n.takeSnapshot index data).Ensures True (Recoverable m e id) (fun r d' => Mirrored m e id n r.1 d') d :=
  Node.takeSnapshot_rule (fun _ => h.unchanged) (fun _ => h.unchanged) fun _ _ =>
    ⟨fun _ => ⟨h.recoverable rfl, h.unchanged⟩,
      fun _ => ⟨h.recoverable rfl, h.mirrored rfl rfl rfl rfl rfl⟩, h.mirrored rfl rfl rfl rfl rfl⟩

end ConsensusLab.Raft
