import ConsensusLab.Raft.Redelivery
import ConsensusLab.Raft.ReplicationRules

/-!
# The search for the point where two logs meet

A leader and one follower alone: the leader sends its snapshot or its entries, the
follower answers, and the leader processes the answer and sends again. Each rejection
moves `nextIndex` back, and a snapshot brings the two logs together where it ends, so the
exchange comes to a success, after which the follower has the leader's log.
-/

namespace ConsensusLab.Raft

open Foundation

/-- What a section returns while storage works; `none` if it panics. -/
def Section.value {A : Type} (p : Section A) (disk : PersistentState) : Option (A × PersistentState) :=
  match p.run [] disk with
  | (.returned a, disk') => some (a, disk')
  | _ => none

/-- A section that cannot be lost has a value. -/
theorem Section.Ensures.value {A : Type} {p : Section A} {post : A → PersistentState → Prop} {disk : PersistentState}
    (h : p.Ensures False (fun _ => False) post disk) : ∃ a disk', p.value disk = some (a, disk') ∧ post a disk' := by
  obtain ⟨a, disk', hrun, hpost⟩ := StorageProgram.Ensures.returned h
  exact ⟨a, disk', by rw [Section.value, Section.run, hrun], hpost⟩

/-- A follower whose snapshot stands for part of the leader's log, which its own log matches. -/
structure Node.Follows (n : Node) (l : List LogEntry) (k : ℕ) : Prop where
  healthy : n.degraded = false
  covers : n.Covers l k
  matching : n.Matches l

/-- A leader and one of its followers. -/
structure Pair where
  leader : Node
  leaderDisk : PersistentState
  follower : Node
  followerDisk : PersistentState

/-- The deferred function of a send goroutine from end to end. -/
def Node.finishSend (n : Node) (peerID : String) : Node :=
  let (released, notify) := n.releaseFlight peerID
  if notify then released.signalReplicate else released

/-- A request that the leader has sent, with the follower's answer. -/
inductive Exchange
  | installed (req : InstallSnapshotRequest) (resp : InstallSnapshotResponse)
  | appended (req : AppendEntriesRequest) (resp : AppendEntriesResponse)

namespace Pair

/-- The leader sends its snapshot. -/
def install (s : Pair) (req : InstallSnapshotRequest) : Option (Pair × Exchange) :=
  match (s.follower.handleInstallSnapshot req).value s.followerDisk with
  | some ((follower, .ok resp), disk) =>
    some ({ s with follower := follower, followerDisk := disk }, .installed req resp)
  | _ => none

/-- The leader sends entries. -/
def append (s : Pair) (req : AppendEntriesRequest) : Option (Pair × Exchange) :=
  match (s.follower.handleAppendEntries req).value s.followerDisk with
  | some ((follower, .ok resp), disk) =>
    some ({ s with follower := follower, followerDisk := disk }, .appended req resp)
  | _ => none

/-- The first half of an exchange: the leader builds a request for the peer, and the follower answers it. -/
def ask (peerID : String) (s : Pair) : Option (Pair × Exchange) :=
  match (s.leader.installSnapshotRequestForPeer peerID).value s.leaderDisk with
  | some ((leader, some (some req)), disk) => { s with leader := leader, leaderDisk := disk }.install req
  | some ((leader, some none), disk) =>
    match (leader.appendEntriesRequestForPeer peerID).value disk with
    | some ((leader', some (some req)), disk') => { s with leader := leader', leaderDisk := disk' }.append req
    | _ => none
  | _ => none

/-- The second half: the leader processes the answer, passes on its signals and ends the send. -/
def settle (peerID : String) (s : Pair) : Exchange → Option Pair
  | .installed req resp =>
    match (s.leader.handleInstallSnapshotResponse peerID req resp).value s.leaderDisk with
    | some (leader, disk) => some { s with leader := leader.finishSend peerID, leaderDisk := disk }
    | none => none
  | .appended req resp =>
    match (s.leader.handleAppendEntriesResponse peerID req resp).value s.leaderDisk with
    | some ((leader, signals), disk) =>
      let applied := if signals.apply then leader.notifyApply else leader
      let signalled := if signals.replicate then applied.signalReplicate else applied
      some { s with leader := signalled.finishSend peerID, leaderDisk := disk }
    | none => none

/-- The exchange goes on until the follower answers with success. Each rejection moves the next index back,
unless it is 1, and the leader can process the success if its snapshot is committed. -/
inductive Converges (peerID : String) : Pair → Pair → Prop
  | success {s s' : Pair} {req : AppendEntriesRequest} {resp : AppendEntriesResponse}
      (hask : s.ask peerID = some (s', .appended req resp)) (hsuccess : resp.success = true)
      (hsettle : s'.leader.snapshotIndex ≤ s'.leader.commitIndex →
        ∃ s'', s'.settle peerID (.appended req resp) = some s'' ∧ s''.follower = s'.follower) :
      Converges peerID s s'
  | rejection {s s₁ s₂ s' : Pair} {req : AppendEntriesRequest} {resp : AppendEntriesResponse}
      (hask : s.ask peerID = some (s₁, .appended req resp)) (hreject : resp.success = false)
      (hsettle : s₁.settle peerID (.appended req resp) = some s₂)
      (hback : 1 < s.leader.nextIndex peerID → s₂.leader.nextIndex peerID < s.leader.nextIndex peerID)
      (hrest : Converges peerID s₂ s') :
      Converges peerID s s'
  | snapshot {s s₁ s₂ s' : Pair} {req : InstallSnapshotRequest} {resp : InstallSnapshotResponse}
      (hask : s.ask peerID = some (s₁, .installed req resp))
      (hsettle : s₁.settle peerID (.installed req resp) = some s₂) (hrest : Converges peerID s₂ s') :
      Converges peerID s s'

/-- A leader with no send to the follower under way, and a follower of its term or an earlier one. The
leader's whole log is `l`; the follower's snapshot stands for a part of it, and its log matches it. -/
structure Aligned (peerID : String) (l : List LogEntry) (s : Pair) : Prop where
  leads : s.leader.role = .leader
  idle : s.leader.replicateInFlight peerID = false
  keeps : ∃ k, s.leader.Keeps l k
  snapshot : s.leader.snapshotIndex ≠ 0 → ∃ snap, s.leader.snapshot = some snap ∧
    snap.lastIncludedIndex = s.leader.snapshotIndex ∧ snap.lastIncludedTerm = s.leader.snapshotTerm
  low : 1 ≤ s.leader.nextIndex peerID
  high : s.leader.nextIndex peerID ≤ s.leader.lastLogIndex + 1
  term : s.follower.currentTerm ≤ s.leader.currentTerm
  follows : ∃ k, s.follower.Follows l k

end Pair

namespace Node

variable {n n' : Node} {l : List LogEntry} {k : ℕ} {disk : PersistentState} {peerID : String}

/-- A rejection moves the next index back. -/
theorem backOff_lt (n : Node) (peerID : String) (resp : AppendEntriesResponse) (hnext : 1 < n.nextIndex peerID) :
    n.backOff peerID resp < n.nextIndex peerID := by
  simp only [backOff]
  split <;> omega

/-- The next index stays positive. -/
theorem backOff_pos (n : Node) (peerID : String) (resp : AppendEntriesResponse) : 1 ≤ n.backOff peerID resp := by
  simp only [backOff]
  split
  · omega
  · split <;> omega

/-- Cutting the log behind a later snapshot keeps log matching. -/
theorem Matches.drop (h : n.Matches l) (hindex : n.snapshotIndex ≤ n'.snapshotIndex)
    (hlog : n'.log = n.log.drop (n'.snapshotIndex - n.snapshotIndex).toNat) : n'.Matches l := by
  intro i own e hown he hterm j hj hlow
  have hheld := h i own e ((entryAt_drop hindex hlog).mp hown).1 he hterm j hj (by omega)
  obtain ⟨e', he'⟩ : ∃ e', l[j]? = some e' := by
    have := (List.getElem?_eq_some_iff.mp he).1
    exact ⟨_, List.getElem?_eq_getElem (by omega)⟩
  rw [he'] at hheld ⊢
  exact (entryAt_drop hindex hlog).mpr ⟨hheld, by omega⟩

/-- Only the log and its offset matter to log matching. -/
theorem Matches.keep (h : n.Matches l) (hindex : n'.snapshotIndex = n.snapshotIndex) (hlog : n'.log = n.log) :
    n'.Matches l := by
  refine h.drop (Int.le_of_eq hindex.symm) ?_
  rw [hlog, hindex, Int.sub_self]
  rfl

/-- While storage works, a follower of no later term ends an InstallSnapshot call with the leader's snapshot
or a later one. -/
theorem follows_handleInstallSnapshot {req : InstallSnapshotRequest} {m : ℕ} (hfollows : n.Follows l k)
    (hterm : n.currentTerm ≤ req.term) (hm : m ≤ l.length) (hindex : req.lastIncludedIndex = m)
    (hsnapTerm : req.lastIncludedTerm = termBefore l m) :
    (n.handleInstallSnapshot req).Ensures False (fun _ => False) (fun r _ => ∃ resp, r.2 = .ok resp ∧
      resp.term = req.term ∧ r.1.currentTerm = req.term ∧ r.1.Follows l (max k m)) disk := by
  have hinstall : ∀ {n₁ : Node} {d}, n₁.Follows l k → n₁.currentTerm = req.term →
      (n₁.installFromLeader req).Ensures False (fun _ => False) (fun r _ => ∃ resp, r.2 = .ok resp ∧
        resp.term = req.term ∧ r.1.currentTerm = req.term ∧ r.1.Follows l (max k m)) d := by
    intro n₁ d h hcurrent
    have hk := h.covers.index
    refine installFromLeader_rule (fun hold => ⟨_, rfl, hcurrent, hcurrent, ?_⟩) fun hnew => ⟨nofun, ?_⟩
    · rw [Nat.max_eq_left (by omega)]
      exact ⟨h.healthy, ⟨h.covers.covered, hk, h.covers.term⟩, h.matching.keep rfl rfl⟩
    · have hadopted : (n₁.asFollower.adoptSnapshot req.snapshot).Follows l (max k m) := by
        rw [Nat.max_eq_right (by omega)]
        exact ⟨h.healthy, ⟨hm, hindex, hsnapTerm⟩,
          h.matching.drop hnew (adoptSnapshot_log n₁.asFollower req.snapshot)⟩
      have hdone : (n₁.asFollower.adoptSnapshot req.snapshot).notifyApply.Follows l (max k m) :=
        ⟨hadopted.healthy, ⟨hadopted.covers.covered, hadopted.covers.index, hadopted.covers.term⟩,
          hadopted.matching.keep rfl rfl⟩
      exact applySnapshot_rule ⟨nofun, _, rfl, hcurrent, hcurrent, hdone⟩
        fun _ => ⟨nofun, _, rfl, hcurrent, hcurrent, hdone⟩
  refine handleInstallSnapshot_rule (fun hdegraded => ?_) (fun _ hstale => ?_) (fun _ _ => ⟨nofun, ?_⟩)
    fun _ hsame => ?_
  · rw [hfollows.healthy] at hdegraded
    cases hdegraded
  · omega
  · exact hinstall ⟨hfollows.healthy, ⟨hfollows.covers.covered, hfollows.covers.index, hfollows.covers.term⟩,
      hfollows.matching.keep rfl rfl⟩ rfl
  · exact hinstall hfollows hsame.symm

/-- A request from within the snapshot fits. -/
theorem Covers.prevMatches (h : n.Covers l k) {req : AppendEntriesRequest} {p : ℕ} (hbuilt : req.BuiltFrom l p)
    (hp : p ≤ k) : n.PrevMatches req := by
  have hprev := hbuilt.prevLogIndex
  have hindex := h.index
  refine ⟨?_, fun hbehind => by omega, fun hat => ?_⟩
  · unfold Node.lastLogIndex
    omega
  · obtain rfl : p = k := by omega
    rw [hbuilt.prevLogTerm, h.term]

/-- The deferred end of a send touches the bookkeeping of sends alone. -/
theorem finishSend_eq (n : Node) (peerID : String) : ∃ notify, n.finishSend peerID =
    { n with
      replicateInFlight := Function.update n.replicateInFlight peerID false
      replicatePending := Function.update n.replicatePending peerID false
      replicateNotify := notify } := by
  unfold finishSend
  cases hnotify : (n.releaseFlight peerID).2 with
  | true => exact ⟨true, by simp only [hnotify]; rfl⟩
  | false => exact ⟨n.replicateNotify, by simp only [hnotify]; rfl⟩

/-- The deferred end of a send keeps the next indices. -/
theorem finishSend_nextIndex (n : Node) (peerID : String) : (n.finishSend peerID).nextIndex = n.nextIndex := by
  obtain ⟨notify, hfinish⟩ := n.finishSend_eq peerID
  rw [hfinish]

/-- The deferred end of a send keeps the snapshot. -/
theorem finishSend_snapshotIndex (n : Node) (peerID : String) :
    (n.finishSend peerID).snapshotIndex = n.snapshotIndex := by
  obtain ⟨notify, hfinish⟩ := n.finishSend_eq peerID
  rw [hfinish]

/-- The node has kept its office, its snapshot and its log. -/
structure SameOffice (n n' : Node) : Prop where
  role : n'.role = n.role
  currentTerm : n'.currentTerm = n.currentTerm
  snapshotIndex : n'.snapshotIndex = n.snapshotIndex
  snapshotTerm : n'.snapshotTerm = n.snapshotTerm
  snapshot : n'.snapshot = n.snapshot
  log : n'.log = n.log

/-- A leader keeps them while it moves the next index of a peer back. -/
theorem sameOffice_backedOff (n : Node) (resp : AppendEntriesResponse) :
    n.SameOffice ((n.sending peerID).backedOff peerID resp).signalReplicate := by
  constructor <;> simp only [signalReplicate, backedOff, sending]

/-- A leader keeps them while it records the progress of a peer. -/
theorem sameOffice_recordProgress (n : Node) (matched : Int) :
    n.SameOffice ((n.sending peerID).recordProgress peerID matched).signalReplicate := by
  constructor <;> simp only [signalReplicate, recordProgress, sending]

/-- A rejection leaves the follower as it was. -/
theorem Rejects.follows {req : AppendEntriesRequest} (h : n.Rejects req n') (hfollows : n.Follows l k) :
    n'.Follows l k where
  healthy := h.degraded
  covers := ⟨hfollows.covers.covered, h.snapshotIndex.trans hfollows.covers.index,
    h.snapshotTerm.trans hfollows.covers.term⟩
  matching := hfollows.matching.keep h.snapshotIndex h.log

end Node

namespace Pair

variable {s s' : Pair} {peerID : String} {l : List LogEntry}

/-- Behind its snapshot the leader sends entries, which the follower accepts or rejects. -/
theorem Aligned.ask_append (h : s.Aligned peerID l) (hbehind : s.leader.snapshotIndex < s.leader.nextIndex peerID) :
    ∃ disk follower disk' req resp, ∃ p : ℕ,
      s.ask peerID = some (⟨s.leader.sending peerID, disk, follower, disk'⟩, .appended req resp) ∧
      s.leader.nextIndex peerID = p + 1 ∧ req.BuiltFrom l p ∧ req.term = s.leader.currentTerm ∧ resp.term = req.term ∧
      follower.currentTerm = req.term ∧ ((resp.success = true ∧ s.follower.Accepts req follower) ∨
        (resp.success = false ∧ s.follower.Rejects req follower)) := by
  obtain ⟨k, hkeeps⟩ := h.keeps
  obtain ⟨kf, hfollows⟩ := h.follows
  have hlow := h.low
  have hmax : max 1 (s.leader.nextIndex peerID) = s.leader.nextIndex peerID := Int.max_eq_right hlow
  obtain ⟨req, hreq⟩ := Node.exists_appendEntriesRequest hbehind h.high
  obtain ⟨p, hp, _, hbuilt, hterm, _⟩ := hkeeps.appendEntriesRequest hlow h.high hreq
  have hskip : (s.leader.installSnapshotRequestForPeer peerID).Ensures False (fun _ => False)
      (fun r _ => r = (s.leader, some none)) s.leaderDisk := by
    refine Node.installSnapshotRequestForPeer_rule (fun hne hnone => ?_) (fun hrole => absurd h.leads hrole)
      (fun _ _ => rfl) (fun _ hbusy => ?_) fun _ _ hneed => ?_
    · obtain ⟨snap, hsnap, _⟩ := h.snapshot hne
      rw [hnone] at hsnap
      cases hsnap
    · rw [h.idle] at hbusy
      cases hbusy
    · exact absurd hneed (Int.not_le.mpr hbehind)
  obtain ⟨_, disk₁, hvalue₁, rfl⟩ := hskip.value
  have hsend : (s.leader.appendEntriesRequestForPeer peerID).Ensures False (fun _ => False)
      (fun r _ => r = (s.leader.sending peerID, some (some req))) disk₁ := by
    refine Node.appendEntriesRequestForPeer_rule (fun _ _ hnone => ?_) (fun hrole => absurd h.leads hrole)
      (fun _ hbusy => ?_) fun _ _ req' hreq' => ?_
    · rw [hmax, hreq] at hnone
      cases hnone
    · rw [h.idle] at hbusy
      cases hbusy
    · rw [hmax, hreq] at hreq'
      cases hreq'
      rfl
  obtain ⟨_, disk₂, hvalue₂, rfl⟩ := hsend.value
  have hle : s.follower.currentTerm ≤ req.term := hterm ▸ h.term
  have hhandle : (s.follower.handleAppendEntries req).Ensures False (fun _ => False)
      (fun r _ => s.follower.Answers req False r) s.followerDisk := Node.handleAppendEntries_answers
  obtain ⟨⟨follower, result⟩, disk₃, hvalue₃, hanswers⟩ := hhandle.value
  cases hanswers with
  | degraded hdegraded =>
    rw [hfollows.healthy] at hdegraded
    cases hdegraded
  | stale hstale => omega
  | failed hfaults => exact hfaults.elim
  | rejected hrejects hrespTerm hsuccess =>
    refine ⟨disk₂, follower, disk₃, req, _, p, ?_, hp, hbuilt, hterm, hrespTerm, hrejects.currentTerm,
      Or.inr ⟨hsuccess, hrejects⟩⟩
    simp only [ask, hvalue₁, hvalue₂, append, hvalue₃]
  | accepted haccepts =>
    refine ⟨disk₂, follower, disk₃, req, follower.acceptance, p, ?_, hp, hbuilt, hterm, haccepts.currentTerm,
      haccepts.currentTerm, Or.inl ⟨rfl, haccepts⟩⟩
    simp only [ask, hvalue₁, hvalue₂, append, hvalue₃]

/-- Up to its snapshot the leader sends the snapshot, and the follower ends with it or a later one. -/
theorem Aligned.ask_install (h : s.Aligned peerID l) (hneed : s.leader.nextIndex peerID ≤ s.leader.snapshotIndex) :
    ∃ disk follower disk' req resp, ∃ k : ℕ,
      s.ask peerID = some (⟨s.leader.sending peerID, disk, follower, disk'⟩, .installed req resp) ∧
      req.term = s.leader.currentTerm ∧ req.lastIncludedIndex = s.leader.snapshotIndex ∧ resp.term = req.term ∧
      follower.currentTerm = req.term ∧ follower.Follows l k ∧ s.leader.snapshotIndex ≤ k := by
  obtain ⟨m, hkeeps⟩ := h.keeps
  obtain ⟨kf, hfollows⟩ := h.follows
  have hlow := h.low
  obtain ⟨snap, hsnap, hindex, hsnapTerm⟩ := h.snapshot (by omega)
  have hsend : (s.leader.installSnapshotRequestForPeer peerID).Ensures False (fun _ => False)
      (fun r _ => r = (s.leader.sending peerID, some (some (s.leader.snapshotRequest snap)))) s.leaderDisk := by
    refine Node.installSnapshotRequestForPeer_rule (fun _ hnone => ?_) (fun hrole => absurd h.leads hrole)
      (fun _ hskip => ?_) (fun _ hbusy => ?_) fun _ _ _ snap' hsnap' => ?_
    · rw [hnone] at hsnap
      cases hsnap
    · exact hskip.elim (fun hzero => by omega) fun hlt => absurd hneed (Int.not_le.mpr hlt)
    · rw [h.idle] at hbusy
      cases hbusy
    · rw [hsnap] at hsnap'
      cases hsnap'
      rfl
  obtain ⟨_, disk₁, hvalue₁, rfl⟩ := hsend.value
  have hhandle := @Node.follows_handleInstallSnapshot _ _ _ s.followerDisk (s.leader.snapshotRequest snap) _ hfollows
    h.term hkeeps.covered (hindex.trans hkeeps.index) (hsnapTerm.trans hkeeps.term)
  obtain ⟨⟨follower, result⟩, disk₂, hvalue₂, resp, hresult, hrespTerm, hcurrent, hdone⟩ := hhandle.value
  obtain rfl : result = .ok resp := hresult
  refine ⟨disk₁, follower, disk₂, s.leader.snapshotRequest snap, resp, _, ?_, rfl, hindex, hrespTerm, hcurrent,
    hdone, ?_⟩
  · simp only [ask, hvalue₁, install, hvalue₂]
  · rw [hkeeps.index]
    omega

/-- After the leader has processed an answer, the pair is aligned again if the leader kept its log and
knows a next index within it. -/
theorem Aligned.after_send (h : s.Aligned peerID l) {m follower : Node} {disk disk' : PersistentState} {k : ℕ}
    (hoffice : s.leader.SameOffice m) (hlow : 1 ≤ m.nextIndex peerID)
    (hhigh : m.nextIndex peerID ≤ s.leader.lastLogIndex + 1)
    (hterm : follower.currentTerm = s.leader.currentTerm) (hfollows : follower.Follows l k) :
    Aligned peerID l ⟨m.finishSend peerID, disk, follower, disk'⟩ := by
  obtain ⟨notify, hfinish⟩ := m.finishSend_eq peerID
  rw [hfinish]
  obtain ⟨k', hkeeps⟩ := h.keeps
  obtain ⟨hrole, hcurrent, hindex, hsnapTerm, hsnapshot, hlog⟩ := hoffice
  refine ⟨hrole.trans h.leads, Function.update_self .., ⟨k', hkeeps.keep hindex hsnapTerm hlog⟩, ?_, hlow, ?_, ?_,
    k, hfollows⟩
  · simp only [hindex, hsnapTerm, hsnapshot]
    exact h.snapshot
  · exact Int.le_trans hhigh (Int.le_of_eq (by simp only [Node.lastLogIndex, hindex, hlog]))
  · exact Int.le_of_eq (hterm.trans hcurrent.symm)

section Answered

variable {req : AppendEntriesRequest} {resp : AppendEntriesResponse} (hleads : s.leader.role = .leader)
  (hreq : req.term = s.leader.currentTerm) (hresp : resp.term = req.term)
include hleads hreq hresp

/-- The leader processes a rejection. -/
theorem settle_rejection (hreject : resp.success = false) (peerID : String) :
    ∃ disk, s.settle peerID (.appended req resp) = some { s with
      leader := (s.leader.backedOff peerID resp).signalReplicate.finishSend peerID
      leaderDisk := disk } := by
  have hensures : (s.leader.handleAppendEntriesResponse peerID req resp).Ensures False (fun _ => False)
      (fun r _ => r = (s.leader.backedOff peerID resp, { apply := false, replicate := true })) s.leaderDisk := by
    refine Node.handleAppendEntriesResponse_rule (fun hlt => by omega) (fun _ hstale => ?_) (fun _ _ _ _ => rfl)
      fun _ _ _ hsuccess => ?_
    · exact hstale.elim (absurd hleads) (absurd hreq)
    · rw [hreject] at hsuccess
      cases hsuccess
  obtain ⟨_, disk, hvalue, rfl⟩ := hensures.value
  exact ⟨disk, by simp only [settle, hvalue, Bool.false_eq_true, if_false, if_true]⟩

/-- The leader can process a success if its snapshot is committed. -/
theorem settle_success (hsuccess : resp.success = true) (hcommit : s.leader.snapshotIndex ≤ s.leader.commitIndex) :
    ∃ s', s.settle peerID (.appended req resp) = some s' ∧ s'.follower = s.follower := by
  have hensures : (s.leader.handleAppendEntriesResponse peerID req resp).Ensures False (fun _ => False)
      (fun _ _ => True) s.leaderDisk := by
    refine Node.handleAppendEntriesResponse_rule (fun hlt => by omega) (fun _ hstale => ?_)
      (fun _ _ _ hreject => ?_) fun _ _ _ _ => ?_
    · exact hstale.elim (absurd hleads) (absurd hreq)
    · rw [hreject] at hsuccess
      cases hsuccess
    · exact Node.advanceCommitIndex_rule (fun hlost => hlost.elim False.elim (Int.not_lt.mpr hcommit)) trivial
        fun _ _ => ⟨nofun, trivial⟩
  obtain ⟨⟨leader, signals⟩, disk, hvalue, _⟩ := hensures.value
  simp only [settle, hvalue]
  exact ⟨_, rfl, rfl⟩

end Answered

/-- The leader processes the answer to a snapshot. -/
theorem settle_install {req : InstallSnapshotRequest} {resp : InstallSnapshotResponse}
    (hleads : s.leader.role = .leader) (hreq : req.term = s.leader.currentTerm)
    (hresp : resp.term = req.term) (peerID : String) :
    ∃ disk, s.settle peerID (.installed req resp) = some { s with
      leader := (s.leader.recordProgress peerID req.lastIncludedIndex).signalReplicate.finishSend peerID
      leaderDisk := disk } := by
  have hensures : (s.leader.handleInstallSnapshotResponse peerID req resp).Ensures False (fun _ => False)
      (fun r _ => r = (s.leader.recordProgress peerID req.lastIncludedIndex).signalReplicate) s.leaderDisk := by
    refine Node.handleInstallSnapshotResponse_rule (fun hlt => by omega) (fun _ hstale => ?_) fun _ _ _ => rfl
    exact hstale.elim (absurd hleads) (absurd hreq)
  obtain ⟨_, disk, hvalue, rfl⟩ := hensures.value
  exact ⟨disk, by simp only [settle, hvalue]⟩

/-- The follower has the leader's log: its snapshot stands for the first entries, and it has the others. -/
def CaughtUp (l : List LogEntry) (s : Pair) : Prop :=
  ∃ k, s.follower.Covers l k ∧ ∀ j < l.length, j < k ∨ s.follower.entryAt (j + 1) = l[j]?

/-- The exchange converges, and then the follower has caught up. -/
abbrev CatchesUp (peerID : String) (l : List LogEntry) (s : Pair) : Prop :=
  ∃ s', s.Converges peerID s' ∧ s'.CaughtUp l

/-- One exchange of entries catches up, or it moves the next index back, which it does only from behind the
follower's snapshot. -/
theorem Aligned.catchesUp_of_append (h : s.Aligned peerID l)
    (hbehind : s.leader.snapshotIndex < s.leader.nextIndex peerID)
    (hagain : ∀ {s₂ : Pair}, s.follower.snapshotIndex + 1 < s.leader.nextIndex peerID → s₂.Aligned peerID l →
      s₂.leader.nextIndex peerID < s.leader.nextIndex peerID → s₂.CatchesUp peerID l) : s.CatchesUp peerID l := by
  obtain ⟨k, hfollows⟩ := h.follows
  have hk := hfollows.covers.index
  obtain ⟨disk, follower, disk', req, resp, p, hask, hp, hbuilt, hreq, hresp, hterm, hanswer⟩ := h.ask_append hbehind
  rcases hanswer with ⟨hsuccess, haccepts⟩ | ⟨hreject, hrejects⟩
  · refine ⟨_, .success hask hsuccess (settle_success h.leads hreq hresp hsuccess), k, ?_, fun j hj => ?_⟩
    · exact ⟨hfollows.covers.covered, haccepts.snapshotIndex.trans hk,
        haccepts.snapshotTerm.trans hfollows.covers.term⟩
    · rcases Nat.lt_or_ge j k with hlt | hge
      · exact Or.inl hlt
      · exact Or.inr (haccepts.entryAt_eq hbuilt (List.prefix_refl l) hfollows.matching (by omega) hj)
  · have hfar : s.follower.snapshotIndex + 1 < s.leader.nextIndex peerID := by
      by_contra hnear
      exact hrejects.conflict (hfollows.covers.prevMatches hbuilt (by omega))
    have hhigh := h.high
    have hback : s.leader.backOff peerID resp < s.leader.nextIndex peerID := s.leader.backOff_lt peerID resp (by omega)
    obtain ⟨disk₂, hsettle⟩ := settle_rejection (s := ⟨s.leader.sending peerID, disk, follower, disk'⟩) h.leads hreq
      hresp hreject peerID
    have hnext : ((s.leader.sending peerID).backedOff peerID resp).signalReplicate.nextIndex peerID =
        s.leader.backOff peerID resp := Function.update_self ..
    have haligned : Aligned peerID l
        ⟨((s.leader.sending peerID).backedOff peerID resp).signalReplicate.finishSend peerID, disk₂, follower, disk'⟩ :=
      h.after_send (s.leader.sameOffice_backedOff resp) (hnext ▸ s.leader.backOff_pos peerID resp)
        (Int.le_trans (Int.le_of_eq hnext) (Int.le_trans (Int.le_of_lt hback) hhigh)) (hterm.trans hreq)
        (hrejects.follows hfollows)
    have hlt : (((s.leader.sending peerID).backedOff peerID resp).signalReplicate.finishSend peerID).nextIndex peerID <
        s.leader.nextIndex peerID := by
      rw [Node.finishSend_nextIndex, hnext]
      exact hback
    obtain ⟨s', hconverges, hcaught⟩ := hagain hfar haligned hlt
    exact ⟨s', .rejection hask hreject hsettle (fun _ => hlt) hconverges, hcaught⟩

/-- **Backtracking converges.** From every aligned pair the exchange ends with a success after finitely many
rounds, each rejection on the way moves the next index back, and in the end the follower has the leader's
log. -/
theorem backtracking_converges (h : s.Aligned peerID l) : s.CatchesUp peerID l := by
  obtain ⟨bound, hbound⟩ : ∃ bound : ℕ, s.leader.nextIndex peerID ≤ bound :=
    ⟨(s.leader.nextIndex peerID).toNat, by omega⟩
  induction bound generalizing s with
  | zero =>
    have := h.low
    omega
  | succ bound ih =>
    rcases Int.lt_or_le s.leader.snapshotIndex (s.leader.nextIndex peerID) with hbehind | hneed
    · exact h.catchesUp_of_append hbehind fun _ haligned hlt => ih haligned (by omega)
    · -- the snapshot puts the next index right behind itself, where the follower accepts
      obtain ⟨disk, follower, disk', req, resp, k, hask, hreq, hindex, hresp, hterm, hfollows, hk⟩ := h.ask_install hneed
      obtain ⟨disk₂, hsettle⟩ := settle_install (s := ⟨s.leader.sending peerID, disk, follower, disk'⟩) h.leads hreq
        hresp peerID
      have hnext : ((s.leader.sending peerID).recordProgress peerID req.lastIncludedIndex).signalReplicate.nextIndex
          peerID = s.leader.snapshotIndex + 1 := by
        rw [hindex]
        exact (Function.update_self ..).trans (Int.max_eq_right (Int.le_trans hneed (by omega)))
      have hfirst : 1 ≤ s.leader.snapshotIndex + 1 := Int.le_trans h.low (Int.le_trans hneed (by omega))
      have hlast : s.leader.snapshotIndex ≤ s.leader.lastLogIndex := by
        unfold Node.lastLogIndex
        omega
      have haligned : Aligned peerID l
          ⟨((s.leader.sending peerID).recordProgress peerID req.lastIncludedIndex).signalReplicate.finishSend peerID,
            disk₂, follower, disk'⟩ :=
        h.after_send (s.leader.sameOffice_recordProgress _) (Int.le_trans hfirst (Int.le_of_eq hnext.symm))
          (Int.le_trans (Int.le_of_eq hnext) (Int.add_le_add_right hlast 1)) (hterm.trans hreq) hfollows
      obtain ⟨s', hconverges, hcaught⟩ := haligned.catchesUp_of_append
        (by rw [Node.finishSend_nextIndex, hnext, Node.finishSend_snapshotIndex]; exact Int.lt_succ _)
        fun hfar => by
          rw [Node.finishSend_nextIndex, hnext, hfollows.covers.index] at hfar
          omega
      exact ⟨s', .snapshot hask hsettle hconverges, hcaught⟩

end Pair

/-- A leader of term 3 that has compacted the first of two entries, and a follower whose second entry is of
term 2; the leader supposes that the follower has all of its log. -/
def divergedPair : Pair where
  leader :=
    { Node.blank "a" ["b", "c"] with
      role := .leader
      currentTerm := 3
      log := leaderLog.drop 1
      snapshotIndex := 1
      snapshotTerm := 1
      snapshot := some { lastIncludedIndex := 1, lastIncludedTerm := 1, config := { members := [] }, data := [] }
      commitIndex := 1
      nextIndex := fun _ => 3 }
  leaderDisk := .empty
  follower :=
    { Node.blank "b" ["a", "c"] with
      currentTerm := 2
      log := leaderLog.take 1 ++ [{ term := 2, type := entryCommand, command := [3] }] }
  followerDisk := .empty

/-- The follower's second entry is replaced after one rejection. -/
theorem backtracking_converges_of_diverged :
    divergedPair.Aligned "b" leaderLog ∧ divergedPair.CatchesUp "b" leaderLog := by
  have hmatches : divergedPair.follower.Matches leaderLog := by
    intro i own e hown he hterm j hj hlow
    match i, hown, he with
    | 0, _, _ =>
      obtain rfl : j = 0 := by omega
      rfl
    | 1, hown, he =>
      cases hown
      cases he
      exact absurd hterm (by decide)
    | i + 2, _, he => cases he
  have haligned : divergedPair.Aligned "b" leaderLog :=
    ⟨rfl, rfl, ⟨1, ⟨by decide, rfl, rfl⟩, rfl⟩, fun _ => ⟨_, rfl, rfl, rfl⟩, by decide, by decide, by decide,
      0, rfl, ⟨by decide, rfl, rfl⟩, hmatches⟩
  exact ⟨haligned, Pair.backtracking_converges haligned⟩

end ConsensusLab.Raft
