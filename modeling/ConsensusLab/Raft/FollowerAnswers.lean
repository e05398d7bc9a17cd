import ConsensusLab.Raft.HandlerRules

/-!
# What an answer says about the follower

The leader infers a follower's log from its own request and a bare answer. Without
storage faults an answer in the leader's term is as good as that: an acceptance means
that the follower has the request's last entry or has compacted it, a rejection that the
entry before the request's first one does not fit, and an answer to a snapshot that the
follower has a snapshot at least as long.
-/

namespace ConsensusLab.Raft

open Foundation

namespace AppendEntriesRequest

/-- The index of the last entry that the request vouches for. -/
def lastIndex (req : AppendEntriesRequest) : Int :=
  req.prevLogIndex + req.entries.length

/-- The term of that entry. -/
def lastTerm (req : AppendEntriesRequest) : Int :=
  (req.entries.getLast?.map LogEntry.term).getD req.prevLogTerm

end AppendEntriesRequest

namespace Node

/-- The node has the last entry of a request, or a snapshot that covers it. -/
def Reaches (n : Node) (req : AppendEntriesRequest) : Prop :=
  req.lastIndex ≤ n.snapshotIndex ∨ ∃ own, n.entryAt req.lastIndex = some own ∧ own.term = req.lastTerm

variable {n n' : Node} {d : PersistentState} {req : AppendEntriesRequest}

/-- The last entry of a log is at the last index. -/
theorem entryAt_lastLogIndex {e : LogEntry} (h : n.log.getLast? = some e) :
    n.entryAt n.lastLogIndex = some e := by
  have hpos : 0 < n.log.length := List.length_pos_of_ne_nil (List.getLast?_isSome.mp (by rw [h]; rfl))
  have hindex : (n.lastLogIndex - n.snapshotIndex - 1).toNat = n.log.length - 1 := by
    unfold lastLogIndex
    omega
  rw [entryAt_of_lt (by unfold lastLogIndex; omega), hindex, ← List.getLast?_eq_getElem?, h]

/-- Only the log and its offset matter. -/
theorem Reaches.keep (h : n.Reaches req) (hindex : n'.snapshotIndex = n.snapshotIndex)
    (hlog : n'.log = n.log) : n'.Reaches req := by
  unfold Reaches entryAt at h ⊢
  rw [hindex, hlog]
  exact h

/-- A request whose entries are all held. -/
theorem reaches_of_holds (hprev : n.PrevMatches req) (hheld : n.Holds (req.prevLogIndex + 1) req.entries) :
    n.Reaches req := by
  rcases List.eq_nil_or_concat' req.entries with hnil | ⟨init, e, hconcat⟩
  · by_cases hcovered : req.prevLogIndex ≤ n.snapshotIndex
    · left
      simpa [AppendEntriesRequest.lastIndex, hnil] using hcovered
    · right
      obtain ⟨own, hown, hterm⟩ := hprev.entry (by omega)
      exact ⟨own, by simpa [AppendEntriesRequest.lastIndex, hnil] using hown,
        by simpa [AppendEntriesRequest.lastTerm, hnil] using hterm⟩
  · have hlast := hheld init.length e (by simp [hconcat])
    have hindex : req.lastIndex = req.prevLogIndex + 1 + init.length := by
      simp only [AppendEntriesRequest.lastIndex, hconcat, List.length_append, List.length_singleton]
      omega
    have hterm : req.lastTerm = e.term := by simp [AppendEntriesRequest.lastTerm, hconcat]
    unfold Reaches
    rw [hindex, hterm]
    exact hlast

/-- A log that ends with the request's entries at their index. -/
theorem reaches_of_suffix {log held rest : List LogEntry} {entry : LogEntry}
    (hsplit : req.entries = held ++ entry :: rest)
    (hindex : n.snapshotIndex + log.length = req.prevLogIndex + held.length) :
    ({ n with log := log ++ entry :: rest } : Node).Reaches req := by
  right
  have hlast : (entry :: rest).getLast? = some ((entry :: rest).getLast (List.cons_ne_nil _ _)) :=
    List.getLast?_eq_some_getLast _
  have hend : ({ n with log := log ++ entry :: rest } : Node).lastLogIndex = req.lastIndex := by
    simp only [lastLogIndex, AppendEntriesRequest.lastIndex, hsplit, List.length_append, List.length_cons]
    omega
  refine ⟨(entry :: rest).getLast (List.cons_ne_nil _ _), ?_, ?_⟩
  · rw [← hend]
    apply entryAt_lastLogIndex
    rw [List.getLast?_append_of_ne_nil _ (List.cons_ne_nil _ _), hlast]
  · rw [AppendEntriesRequest.lastTerm, hsplit, List.getLast?_append_of_ne_nil _ (List.cons_ne_nil _ _), hlast]
    rfl

/-- Merging entries behind a matching one reaches the last of them. -/
theorem reaches_mergeEntries (hprev : n.PrevMatches req) :
    (n.mergeEntries (req.prevLogIndex + 1) req.entries).Ensures False (fun _ => True)
      (fun r _ => r.1.currentTerm = n.currentTerm ∧ r.1.Reaches req) d := by
  have hreached := hprev.reached
  refine mergeEntries_rule (fun hheld => ⟨rfl, reaches_of_holds hprev hheld⟩)
    (fun held entry rest hsplit hheld _ hbehind => ⟨nofun, rfl, reaches_of_suffix hsplit ?_⟩)
    (fun held entry rest own hsplit hheld hown _ => ⟨nofun, nofun, rfl, reaches_of_suffix hsplit ?_⟩)
  · have hle := hheld.le_lastLogIndex (by omega)
    unfold lastLogIndex at hle hbehind
    omega
  · obtain ⟨hlow, hhigh, _⟩ := entryAt_eq_some hown
    unfold lastLogIndex at hhigh
    rw [List.length_take_of_le (by omega)]
    omega

/-- What an answer of `HandleAppendEntries` says; rejections from a later term say nothing. -/
structure AnswersEntries (n : Node) (req : AppendEntriesRequest) (resp : AppendEntriesResponse) : Prop where
  accepted : resp.success = true → n.currentTerm = req.term ∧ n.Reaches req
  rejected : resp.success = false → resp.term ≤ req.term →
    n.currentTerm = req.term ∧ n.PrevConflict req resp

/-- Handling entries in their term. -/
theorem answers_appendFromLeader (hterm : n.currentTerm = req.term) :
    (n.appendFromLeader req).Ensures False (fun _ => True)
      (fun r _ => ∀ resp, r.2 = .ok resp → r.1.AnswersEntries req resp) d := by
  refine appendFromLeader_rule (fun conflict hconflict resp hresp => ?_) fun hprev =>
    (reaches_mergeEntries hprev).mono (fun _ h => h) fun merged d₁ hmerged =>
      ⟨nofun, fun _ => followCommit_rule (fun _ => ⟨nofun, fun _ resp hresp => ?_⟩)
        fun _ => ⟨nofun, nofun, fun _ resp hresp => ?_⟩⟩
  · cases hresp
    refine ⟨fun hsuccess => ?_, fun _ _ => ⟨hterm, hconflict⟩⟩
    cases hconflict <;> cases hsuccess
  · cases hresp
    exact ⟨fun _ => ⟨hmerged.1.trans hterm, hmerged.2⟩, nofun⟩
  · cases hresp
    exact ⟨fun _ => ⟨hmerged.1.trans hterm, hmerged.2.keep rfl rfl⟩, nofun⟩

/-- Handling entries. -/
theorem answers_handleAppendEntries :
    (n.handleAppendEntries req).Ensures False (fun _ => True)
      (fun r _ => ∀ resp, r.2 = .ok resp → r.1.AnswersEntries req resp) d := by
  refine handleAppendEntries_rule (fun _ => nofun) (fun _ hstale resp hresp => ?_)
    (fun _ _ => ⟨nofun, answers_appendFromLeader rfl⟩)
    fun _ hsame => answers_appendFromLeader hsame.symm
  cases hresp
  exact ⟨nofun, fun _ hle => absurd hstale (Int.not_lt.mpr hle)⟩

/-- What an answer of `HandleInstallSnapshot` says; those from a later term say nothing. -/
def AnswersSnapshot (n : Node) (req : InstallSnapshotRequest) (resp : InstallSnapshotResponse) : Prop :=
  resp.term ≤ req.term → n.currentTerm = req.term ∧ req.lastIncludedIndex ≤ n.snapshotIndex

/-- Handling a snapshot. -/
theorem answers_handleInstallSnapshot {req : InstallSnapshotRequest} :
    (n.handleInstallSnapshot req).Ensures False (fun _ => True)
      (fun r _ => ∀ resp, r.2 = .ok resp → r.1.AnswersSnapshot req resp) d := by
  have hinstall : ∀ {n₁ : Node} {d₁}, n₁.currentTerm = req.term →
      (n₁.installFromLeader req).Ensures False (fun _ => True)
        (fun r _ => ∀ resp, r.2 = .ok resp → r.1.AnswersSnapshot req resp) d₁ := by
    intro n₁ d₁ hterm
    have hinstalled : ∀ resp, (n₁.asFollower.adoptSnapshot req.snapshot).notifyApply.AnswersSnapshot req resp :=
      fun _ _ => ⟨hterm, Int.le_refl _⟩
    refine installFromLeader_rule (fun hold resp _ _ => ⟨hterm, ?_⟩) fun _ =>
      ⟨nofun, applySnapshot_rule ⟨nofun, fun resp _ => hinstalled resp⟩ fun _ =>
        ⟨nofun, fun resp _ => hinstalled resp⟩⟩
    change req.lastIncludedIndex ≤ n₁.snapshotIndex
    omega
  refine handleInstallSnapshot_rule (fun _ => nofun) (fun _ hstale resp hresp => ?_)
    (fun _ _ => ⟨nofun, hinstall rfl⟩) fun _ hsame => hinstall hsame.symm
  cases hresp
  intro hle
  exact absurd hstale (Int.not_lt.mpr hle)

end Node

variable {sv : Server} {fresh : ℕ} {result : Server × Effects}

/-- What a server's answers to entries say about its node. -/
theorem Server.Move.answersEntries {req : AppendEntriesRequest} {resp : AppendEntriesResponse}
    (hmove : sv.Move fresh [] (.receive (.append req)) result)
    (hreply : result.2.reply = some (.append resp)) : result.1.node.AnswersEntries req resp := by
  cases hmove
  revert hreply
  refine Server.perform_rule (P := fun result => result.2.reply = some (.append resp) →
    result.1.node.AnswersEntries req resp) Node.answers_handleAppendEntries (Or.inr rfl) ?_ nofun
  rintro ⟨node, _ | answer⟩ disk hanswers hreply
  · cases hreply
  · cases hreply
    exact hanswers _ rfl

/-- What a server's answers to a snapshot say about its node. -/
theorem Server.Move.answersSnapshot {req : InstallSnapshotRequest} {resp : InstallSnapshotResponse}
    (hmove : sv.Move fresh [] (.receive (.install req)) result)
    (hreply : result.2.reply = some (.install resp)) : result.1.node.AnswersSnapshot req resp := by
  cases hmove
  revert hreply
  refine Server.perform_rule (P := fun result => result.2.reply = some (.install resp) →
    result.1.node.AnswersSnapshot req resp) Node.answers_handleInstallSnapshot (Or.inr rfl) ?_ nofun
  rintro ⟨node, _ | answer⟩ disk hanswers hreply
  · cases hreply
  · cases hreply
    exact hanswers _ rfl

end ConsensusLab.Raft
