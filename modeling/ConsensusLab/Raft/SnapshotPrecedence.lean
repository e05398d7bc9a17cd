import ConsensusLab.Raft.SnapshotMatching
import ConsensusLab.Raft.ApplyLoopSafety

/-!
# How recent a log is after a snapshot

A vote is refused to candidates whose log is older than the node's own, and what counts
is the node's last entry. A follower that keeps entries behind an installed snapshot can
end in an older term than the snapshot's, and then votes for candidates that lack what
the snapshot covers. It ends at least where the snapshot does exactly if nothing is kept
or what is kept continues the snapshot and ends no earlier.
-/

namespace ConsensusLab.Raft

open Foundation

/-- `HandleInstallSnapshot` accepts a request: it is neither refused nor behind the node's own snapshot. -/
structure Node.AcceptsSnapshot (n : Node) (req : InstallSnapshotRequest) : Prop where
  healthy : n.degraded = false
  term : n.currentTerm ≤ req.term
  index : n.snapshotIndex ≤ req.lastIncludedIndex

instance (n : Node) (req : InstallSnapshotRequest) : Decidable (n.AcceptsSnapshot req) :=
  decidable_of_iff (n.degraded = false ∧ n.currentTerm ≤ req.term ∧ n.snapshotIndex ≤ req.lastIncludedIndex)
    ⟨fun h => ⟨h.1, h.2.1, h.2.2⟩, fun h => ⟨h.healthy, h.term, h.index⟩⟩

/-- A candidate's log is older than a snapshot. -/
def RequestVoteRequest.olderThan (vote : RequestVoteRequest) (req : InstallSnapshotRequest) : Prop :=
  vote.lastLogTerm < req.lastIncludedTerm ∨
    (vote.lastLogTerm = req.lastIncludedTerm ∧ vote.lastLogIndex < req.lastIncludedIndex)

/-- A node's log ends at or behind the snapshot in the order of votes. -/
def Node.EndsBehind (n : Node) (req : InstallSnapshotRequest) : Prop :=
  req.lastIncludedTerm < n.lastLogTerm ∨
    (req.lastIncludedTerm = n.lastLogTerm ∧ req.lastIncludedIndex ≤ n.lastLogIndex)

/-- The server refuses its vote to every candidate whose log is older than the snapshot. -/
def Server.RefusesOlder (sv : Server) (req : InstallSnapshotRequest) : Prop :=
  ∀ vote fresh fates result, vote.olderThan req → sv.step fresh fates (.receive (.vote vote)) = some result →
    ∀ resp, result.2.reply = some (.vote resp) → resp.voteGranted = false

/-- What an accepted snapshot should leave behind: a log that ends no earlier than the snapshot, with
entries behind it only if the node had the snapshot's term at its index, and refused votes. -/
structure InstallsSoundly (n : Node) (req : InstallSnapshotRequest) (after : Server) : Prop where
  ends : after.node.EndsBehind req
  kept : n.represented req.lastIncludedIndex = some req.lastIncludedTerm ∨ after.node.log = []
  refuses : after.RefusesOlder req

/-- Nothing is kept behind the snapshot, or it continues the snapshot and ends no earlier. -/
def Node.EndsInOrder (n : Node) (req : InstallSnapshotRequest) : Prop :=
  n.lastLogIndex ≤ req.lastIncludedIndex ∨
    (n.represented req.lastIncludedIndex = some req.lastIncludedTerm ∧ req.lastIncludedTerm ≤ n.lastLogTerm)

variable {n : Node} {req : InstallSnapshotRequest}

/-- The snapshot has become the start of the log, and the entries behind it have stayed. -/
structure Node.StartsAt (n : Node) (req : InstallSnapshotRequest) (n' : Node) : Prop where
  index : n'.snapshotIndex = req.lastIncludedIndex
  term : n'.snapshotTerm = req.lastIncludedTerm
  log : n'.log = n.log.drop (req.lastIncludedIndex - n.snapshotIndex).toNat

/-- An accepted snapshot becomes the start of the log unless an error is returned. The handler does not look at what
became of its last two storage calls. -/
theorem Node.handleInstallSnapshot_accepted {faults : Prop} {d : PersistentState} (haccepts : n.AcceptsSnapshot req) :
    (n.handleInstallSnapshot req).Ensures faults (fun _ => faults)
      (fun r _ => (faults → ∃ resp, r.2 = .ok resp) → n.StartsAt req r.1) d := by
  have hinstall : ∀ {n₁ : Node} {d₁ : PersistentState}, n₁.snapshotIndex = n.snapshotIndex →
      n₁.log = n.log → (n₁.installFromLeader req).Ensures faults (fun _ => faults)
        (fun r _ => (faults → ∃ resp, r.2 = .ok resp) → n.StartsAt req r.1) d₁ := by
    intro n₁ d₁ hindex hlog
    have hadopted : (n₁.asFollower.adoptSnapshot req.snapshot).log =
        n.log.drop (req.lastIncludedIndex - n.snapshotIndex).toNat := by
      rw [Node.adoptSnapshot_log, ← hindex, ← hlog]
      rfl
    have hadopts : n.StartsAt req (n₁.asFollower.adoptSnapshot req.snapshot).notifyApply := ⟨rfl, rfl, hadopted⟩
    refine Node.installFromLeader_rule ?_ fun _ => ⟨fun hfaults => ⟨hfaults, fun hok => ?_⟩, ?_⟩
    · intro hold _
      have hnew := haccepts.index
      rw [← hindex] at hnew
      obtain ⟨hsame, hterm⟩ := hold.resolve_left (Int.not_lt.mpr hnew)
      refine ⟨hsame.symm, hterm.symm, ?_⟩
      rw [hsame, hindex, Int.sub_self, Int.toNat_zero, List.drop_zero]
      exact hlog
    · obtain ⟨resp, hresp⟩ := hok hfaults
      cases hresp
    · exact Node.applySnapshot_rule ⟨fun hfaults => ⟨hfaults, fun _ => hadopts⟩, fun _ => hadopts⟩
        fun _ => ⟨fun hfaults => ⟨hfaults, fun _ => hadopts⟩, fun _ => hadopts⟩
  refine Node.handleInstallSnapshot_rule ?_ ?_
    (fun _ _ => ⟨fun hfaults => ⟨hfaults, fun hok => ?_⟩, hinstall rfl rfl⟩) fun _ _ => hinstall rfl rfl
  · intro hdegraded
    rw [haccepts.healthy] at hdegraded
    cases hdegraded
  · intro _ hstale
    exact absurd haccepts.term (Int.not_le.mpr hstale)
  · obtain ⟨resp, hresp⟩ := hok hfaults
    cases hresp

/-- The same for the process, if all storage calls succeed or at least the request is answered. -/
theorem Server.startsAt_of_install {sv : Server} {fresh : ℕ} {fates : List Fate} {result : Server × Effects}
    (haccepts : sv.node.AcceptsSnapshot req) (hstep : sv.step fresh fates (.receive (.install req)) = some result)
    (hanswered : fates = [] ∨ result.2.reply ≠ none) : sv.node.StartsAt req result.1.node := by
  cases hstep
  revert hanswered
  refine Server.perform_rule (P := fun result => fates = [] ∨ result.2.reply ≠ none →
    sv.node.StartsAt req result.1.node) (Node.handleInstallSnapshot_accepted haccepts)
    (Or.symm (em (fates = []))) ?_ fun _ _ hfaults hanswered => absurd rfl (hanswered.resolve_left hfaults)
  rintro ⟨node, _ | resp⟩ disk hstarts hanswered
  · have hcalm : fates = [] := hanswered.resolve_right (not_not.mpr rfl)
    exact hstarts fun hfaults => absurd hcalm hfaults
  · exact hstarts fun _ => ⟨resp, rfl⟩

/-- A node grants its vote only to candidates whose log is at least as recent as its own. -/
theorem Node.handleRequestVote_upToDate {d : PersistentState} (vote : RequestVoteRequest) :
    (n.handleRequestVote vote).Ensures True (fun _ => True)
      (fun r _ => ∀ resp, r.2 = .ok resp → resp.voteGranted = true → n.upToDate vote) d := by
  have hcast : ∀ {n₁ : Node} {d₁ : PersistentState}, n₁.lastLogTerm = n.lastLogTerm →
      n₁.lastLogIndex = n.lastLogIndex → (n₁.castVote vote).Ensures True (fun _ => True)
        (fun r _ => ∀ resp, r.2 = .ok resp → resp.voteGranted = true → n.upToDate vote) d₁ := by
    intro n₁ d₁ hterm hindex
    refine Node.castVote_rule ?_ ?_
    · intro resp hresp hgranted
      cases hresp
      cases hgranted
    · intro _ hrecent
      refine ⟨fun _ => ⟨trivial, fun _ hresp => by cases hresp⟩, fun _ _ _ => ?_⟩
      rw [Node.upToDate, hterm, hindex] at hrecent
      exact hrecent
  refine Node.handleRequestVote_rule (fun _ _ hresp => by cases hresp) ?_
    (fun _ _ => ⟨fun _ => ⟨trivial, fun _ hresp => by cases hresp⟩, hcast rfl rfl⟩) fun _ _ => hcast rfl rfl
  intro _ _ resp hresp hgranted
  cases hresp
  cases hgranted

/-- A log that ends behind the snapshot is more recent than any older candidate's. -/
theorem Node.EndsBehind.refusesOlder {sv : Server} (h : sv.node.EndsBehind req) : sv.RefusesOlder req := by
  intro vote fresh fates result holder hstep resp hreply
  cases hstep
  by_contra hgranted
  have hvotes : ∀ resp, (sv.carryOut fates (sv.planReceive (.vote vote))).2.reply = some (.vote resp) →
      resp.voteGranted = true → sv.node.upToDate vote := by
    refine Server.perform_rule (P := fun result => ∀ resp, result.2.reply = some (.vote resp) →
      resp.voteGranted = true → sv.node.upToDate vote) (sv.node.handleRequestVote_upToDate vote)
      (Or.inl trivial) ?_ ?_
    · intro r disk hr resp' hresp' hgranted'
      obtain ⟨node, err | answer⟩ := r
      · cases hresp'
      · cases hresp'
        exact hr resp' rfl hgranted'
    · intro _ _ _ resp' hresp'
      cases hresp'
  have hrecent := hvotes resp hreply (Bool.eq_true_of_not_eq_false hgranted)
  unfold RequestVoteRequest.olderThan at holder
  unfold Node.EndsBehind at h
  unfold Node.upToDate at hrecent
  omega

/-- Dropping entries that leaves some of them leaves the last one. -/
theorem Node.lastLogTerm_of_drop {n' : Node} {k : ℕ} (hlog : n'.log = n.log.drop k)
    (hsome : k < n.log.length) : n'.lastLogTerm = n.lastLogTerm := by
  have hlast : n'.log.getLast? = n.log.getLast? := by
    rw [hlog, List.getLast?_drop, if_neg (by omega)]
  unfold Node.lastLogTerm
  rw [hlast]
  cases hget : n.log.getLast? with
  | none =>
    rw [List.getLast?_eq_none_iff] at hget
    rw [hget] at hsome
    cases hsome
  | some entry => rfl

/-- **What installing a snapshot leaves behind.** For every server and every snapshot it accepts, whatever becomes of
the storage calls as long as the request is answered: its log ends no earlier than the snapshot, keeps only what
continues it, and refuses votes to older candidates, exactly if the entries kept are none or continue the snapshot and
end no earlier. -/
theorem installs_soundly_iff {sv : Server} (fresh : ℕ) {fates : List Fate} {result : Server × Effects}
    (haccepts : sv.node.AcceptsSnapshot req) (hstep : sv.step fresh fates (.receive (.install req)) = some result)
    (hanswered : fates = [] ∨ result.2.reply ≠ none) :
    InstallsSoundly sv.node req result.1 ↔ sv.node.EndsInOrder req := by
  obtain ⟨hindex, hterm, hlog⟩ := Server.startsAt_of_install haccepts hstep hanswered
  have hstart := haccepts.index
  have hlast : sv.node.lastLogIndex = sv.node.snapshotIndex + sv.node.log.length := rfl
  have hlast' : result.1.node.lastLogIndex = req.lastIncludedIndex + result.1.node.log.length := by
    rw [Node.lastLogIndex, hindex]
  by_cases hnone : sv.node.lastLogIndex ≤ req.lastIncludedIndex
  · have hempty : result.1.node.log = [] := by
      rw [hlog]
      exact List.drop_eq_nil_of_le (by omega)
    have hends : result.1.node.EndsBehind req := by
      refine Or.inr ⟨?_, by omega⟩
      rw [Node.lastLogTerm, hempty]
      exact hterm.symm
    exact ⟨fun _ => Or.inl hnone, fun _ => ⟨hends, Or.inr hempty, hends.refusesOlder⟩⟩
  · have hsome : (req.lastIncludedIndex - sv.node.snapshotIndex).toNat < sv.node.log.length := by omega
    have hsame := Node.lastLogTerm_of_drop hlog hsome
    have hkept : result.1.node.log ≠ [] := by
      rw [hlog]
      exact fun hnil => absurd (List.drop_eq_nil_iff.mp hnil) (by omega)
    constructor
    · intro h
      have hends := h.ends
      unfold Node.EndsBehind at hends
      exact Or.inr ⟨h.kept.resolve_right hkept, by omega⟩
    · intro h
      obtain ⟨hrepresented, hrecent⟩ := h.resolve_left hnone
      have hends : result.1.node.EndsBehind req := by
        unfold Node.EndsBehind
        omega
      exact ⟨hends, Or.inl hrepresented, hends.refusesOlder⟩

/-- A node with two entries accepts a snapshot up to the first and keeps the second, although `SetLog` fails. -/
theorem installs_soundly_iff_keeping_entry :
    ∃ sv req result, (Server.boot "a" ["a", "b", "c"] .empty).drive
        (.of (entriesOf 0 0 [commandEntry 7, commandEntry 8] 0)) = some sv ∧
      snapshotOf 1 = .receive (.install req) ∧
      sv.step 0 [.succeeds, .succeeds, .fails] (.receive (.install req)) = some result ∧
      result.1.node.log = [commandEntry 8] ∧ InstallsSoundly sv.node req result.1 := by
  refine ⟨_, _, _, rfl, rfl, rfl, rfl, ?_⟩
  exact (installs_soundly_iff 0 (by decide) rfl (Or.inr (by decide))).mpr (Or.inr ⟨rfl, by decide⟩)

/-- In the run in which `b` sends its snapshot to the deposed leader `a`, node `a` ends in term 1
although the snapshot it has installed ends in term 2. -/
theorem installed_snapshot_outlived : ∃ c, ClusterReachable threeNodes Undisturbed c ∧
    ∃ tr ∈ c.trace, ∃ req ∈ tr.input.installs, tr.before.node.AcceptsSnapshot req ∧
      req.lastIncludedTerm = 2 ∧ tr.after.node.lastLogTerm = 1 ∧
      ¬InstallsSoundly tr.before.node req tr.after := by
  have hrun : ((Cluster.first threeNodes.ids).run threeNodes Undisturbed staleSuffixKept).map
      (fun c => decide (∃ tr ∈ c.trace, ∃ req ∈ tr.input.installs, tr.before.node.AcceptsSnapshot req ∧
        req.lastIncludedTerm = 2 ∧ tr.after.node.lastLogTerm = 1)) = some true := by
    decide +kernel
  obtain ⟨c, hc, hfacts⟩ := exists_reachable_of_run hrun
  obtain ⟨tr, htr, req, hreq, haccepts, hterm, hlast⟩ := of_decide_eq_true hfacts
  refine ⟨c, hc, tr, htr, req, hreq, haccepts, hterm, hlast, ?_⟩
  intro hsound
  have hends := hsound.ends
  unfold Node.EndsBehind at hends
  omega

end ConsensusLab.Raft
