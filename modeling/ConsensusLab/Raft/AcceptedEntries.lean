import ConsensusLab.Raft.HandlerRules

/-!
# What an accepted request leaves behind

`HandleAppendEntries` answers with success only after the preceding entry fitted and the
entries were merged into the log: they were all there, or the rest of them now ends the
log. The result is described here once, and the other way round, a request that brings
nothing new is recognised before it is handled.
-/

namespace ConsensusLab.Raft

open Foundation

namespace Node

/-- The log after the loop over the entries of a request, the first of which has the given index. -/
inductive MergesTo (n : Node) (index : Int) (entries : List LogEntry) : List LogEntry → Prop
  | held (hheld : n.Holds index entries) : MergesTo n index entries n.log
  | append {held rest : List LogEntry} {entry : LogEntry} (hsplit : entries = held ++ entry :: rest)
      (hheld : n.Holds index held) (hsnap : n.snapshotIndex < index + held.length)
      (hlast : n.lastLogIndex < index + held.length) : MergesTo n index entries (n.log ++ entry :: rest)
  | replace {held rest : List LogEntry} {entry own : LogEntry} (hsplit : entries = held ++ entry :: rest)
      (hheld : n.Holds index held) (hown : n.entryAt (index + held.length) = some own)
      (hterm : own.term ≠ entry.term) :
      MergesTo n index entries (n.log.take (index + held.length - n.snapshotIndex - 1).toNat ++ entry :: rest)

variable {n : Node} {index : Int} {entries log : List LogEntry} {req : AppendEntriesRequest} {faults : Prop}
  {disk : PersistentState}

/-- The loop over the entries merges them, or storage fails. -/
theorem merges_mergeEntries {Q : Node × Except RaftError Unit → PersistentState → Prop}
    (hfailed : faults → ∀ n' d, Q (n', .error .storage) d)
    (hmerged : ∀ log d, n.MergesTo index entries log → Q ({ n with log := log }, .ok ()) d) :
    (n.mergeEntries index entries).Ensures faults (fun _ => faults) Q disk := by
  refine mergeEntries_rule (fun hheld => hmerged _ _ (.held hheld)) (fun held entry rest hsplit hheld hsnap hlast => ?_)
    (fun held entry rest own hsplit hheld hown hterm => ?_)
  · exact ⟨fun hf => ⟨hf, hfailed hf _ _⟩, hmerged _ _ (.append hsplit hheld hsnap hlast)⟩
  · exact ⟨fun hf => ⟨hf, hfailed hf _ _⟩, fun hf => ⟨hf, hfailed hf _ _⟩,
      hmerged _ _ (.replace hsplit hheld hown hterm)⟩

/-- The entry where a split list goes on. -/
theorem getElem?_split {held rest : List LogEntry} {entry : LogEntry} (hsplit : entries = held ++ entry :: rest)
    (j : ℕ) : entries[held.length + j]? = (entry :: rest)[j]? := by
  rw [hsplit, List.getElem?_append_right (Nat.le_add_right _ _), Nat.add_sub_cancel_left]

/-- Entries that are all there leave the log as it is. -/
theorem MergesTo.eq_of_holds (h : n.MergesTo index entries log) (hheld : n.Holds index entries) : log = n.log := by
  cases h with
  | held => rfl
  | append hsplit _ hsnap hlast =>
    have hentry := getElem?_split hsplit 0
    rcases hheld _ _ hentry with hcovered | ⟨own, hown, _⟩
    · omega
    · have := (entryAt_eq_some hown).2.1
      omega
  | replace hsplit _ hown hterm =>
    have hentry := getElem?_split hsplit 0
    rcases hheld _ _ hentry with hcovered | ⟨own', hown', hterm'⟩
    · have := (entryAt_eq_some hown).1
      omega
    · rw [Nat.add_zero, hown] at hown'
      cases hown'
      exact absurd hterm' hterm

/-- Entries that are not all there end the log. -/
theorem MergesTo.end_of_not_holds (h : n.MergesTo index entries log) (hreached : index - 1 ≤ n.lastLogIndex)
    (hnot : ¬n.Holds index entries) : n.snapshotIndex + log.length = index - 1 + entries.length := by
  cases h with
  | held hheld => exact absurd hheld hnot
  | append hsplit hheld hsnap hlast =>
    have hle := hheld.le_lastLogIndex hreached
    unfold lastLogIndex at hle hlast
    rw [hsplit, List.length_append, List.length_append]
    omega
  | replace hsplit hheld hown =>
    obtain ⟨hlow, hhigh, _⟩ := entryAt_eq_some hown
    unfold lastLogIndex at hhigh
    rw [hsplit, List.length_append, List.length_append, List.length_take_of_le (by omega)]
    omega

/-- What the loop writes: nothing, or what is missing behind the entries below it, which it keeps. -/
theorem MergesTo.split (h : n.MergesTo index entries log) (hreached : index - 1 ≤ n.lastLogIndex) :
    (n.Holds index entries ∧ log = n.log) ∨
      ∃ (held rest : List LogEntry) (base : Node), entries = held ++ rest ∧ n.Holds index held ∧
        log = base.log ++ rest ∧ base.snapshotIndex = n.snapshotIndex ∧ base.lastLogIndex + 1 = index + held.length ∧
        ∀ i e, base.entryAt i = some e ↔ n.entryAt i = some e ∧ i < index + held.length := by
  cases h with
  | held hheld => exact Or.inl ⟨hheld, rfl⟩
  | append hsplit hheld hsnap hlast =>
    have hle := hheld.le_lastLogIndex hreached
    refine Or.inr ⟨_, _, n, hsplit, hheld, rfl, rfl, by omega, fun i e => ⟨fun he => ⟨he, ?_⟩, fun he => he.1⟩⟩
    have := (entryAt_eq_some he).2.1
    omega
  | @replace held rest entry own hsplit hheld hown hterm =>
    obtain ⟨hlow, hhigh, _⟩ := entryAt_eq_some hown
    refine Or.inr ⟨_, _, n.cut (index + held.length), hsplit, hheld, rfl, rfl, ?_, fun i e => entryAt_cut n hlow⟩
    unfold Node.lastLogIndex at hhigh
    change n.snapshotIndex + ((n.log.take _).length : Int) + 1 = _
    rw [List.length_take_of_le (by omega)]
    omega

section Merged

variable {n' : Node} (h : n.MergesTo index entries n'.log) (hindex : n'.snapshotIndex = n.snapshotIndex)
  (hreached : index - 1 ≤ n.lastLogIndex)
include h hindex hreached

/-- Below the entries of the request the log stays as it was. -/
theorem MergesTo.entryAt_below {i : Int} {e : LogEntry} (hi : i < index) :
    n'.entryAt i = some e ↔ n.entryAt i = some e := by
  rcases h.split hreached with ⟨_, hlog⟩ | ⟨held, rest, base, _, _, hlog, hbase, hlast, hentry⟩
  · rw [entryAt_congr hindex hlog]
  · rw [entryAt_congr (n := base.extended rest) (hindex.trans hbase.symm) hlog]
    refine ⟨fun he => ?_, fun he => entryAt_extended ((hentry i e).mpr ⟨he, by omega⟩)⟩
    rcases of_entryAt_extended he with hold | ⟨j, hj, _⟩
    · exact ((hentry i e).mp hold).1
    · omega

/-- Each entry of the request is now covered by the snapshot, in the log, or in the log as the entry of
the same term that was there before. -/
theorem MergesTo.entryAt_sent {j : ℕ} {e : LogEntry} (he : entries[j]? = some e) :
    index + j ≤ n'.snapshotIndex ∨ n'.entryAt (index + j) = some e ∨
      ∃ own, n.entryAt (index + j) = some own ∧ n'.entryAt (index + j) = some own ∧ own.term = e.term := by
  rcases h.split hreached with ⟨hheld, hlog⟩ | ⟨held, rest, base, hsplit, hheld, hlog, hbase, hlast, hentry⟩
  · rcases hheld j e he with hcovered | ⟨own, hown, hterm⟩
    · exact Or.inl (hindex ▸ hcovered)
    · exact Or.inr (Or.inr ⟨own, hown, (entryAt_congr hindex hlog _).trans hown, hterm⟩)
  · have hsame := entryAt_congr (n := base.extended rest) (hindex.trans hbase.symm) hlog
    rw [hsplit] at he
    by_cases hj : j < held.length
    · rw [List.getElem?_append_left hj] at he
      rcases hheld j e he with hcovered | ⟨own, hown, hterm⟩
      · exact Or.inl (hindex ▸ hcovered)
      · have hbelow : base.entryAt (index + j) = some own := (hentry _ _).mpr ⟨hown, by omega⟩
        exact Or.inr (Or.inr ⟨own, hown, (hsame _).trans (entryAt_extended hbelow), hterm⟩)
    · rw [List.getElem?_append_right (by omega)] at he
      refine Or.inr (Or.inl ?_)
      rw [hsame, ← he, ← entryAt_extended_new base rest]
      congr 1
      omega

/-- After merging, the entries of the request are held. -/
theorem MergesTo.holds : n'.Holds index entries := by
  intro j e he
  rcases h.entryAt_sent hindex hreached he with hcovered | hnew | ⟨own, _, hown, hterm⟩
  · exact Or.inl hcovered
  · exact Or.inr ⟨e, hnew, rfl⟩
  · exact Or.inr ⟨own, hown, hterm⟩

end Merged

/-- A preceding entry that matches passes the check. -/
theorem checkPrevLog_of_matches (h : n.PrevMatches req) : n.checkPrevLog req = pure none := by
  have hreached := h.reached
  unfold checkPrevLog
  rw [if_neg (by omega)]
  split
  · rename_i hbehind
    obtain ⟨own, hown, hterm⟩ := h.entry hbehind
    rw [hown]
    exact if_neg (not_not.mpr hterm)
  · split
    · rename_i hat
      exact if_neg (not_not.mpr (h.boundary hat))
    · rfl

/-- Entries that are all there are passed over. -/
theorem mergeEntries_of_holds {entries : List LogEntry} {index : Int} (h : n.Holds index entries) :
    n.mergeEntries index entries = pure (n, .ok ()) := by
  induction entries generalizing index with
  | nil => rfl
  | cons entry rest ih =>
    have hrest : n.Holds (index + 1) rest := by
      intro j e he
      rw [show index + 1 + (j : Int) = index + ((j + 1 : ℕ) : Int) by omega]
      exact h (j + 1) e he
    rcases h 0 entry rfl with hcovered | ⟨own, hown, hterm⟩
    · rw [mergeEntries, if_pos (by omega)]
      exact ih hrest
    · rw [Int.natCast_zero, Int.add_zero] at hown
      obtain ⟨hlow, hhigh, _⟩ := entryAt_eq_some hown
      rw [mergeEntries, if_neg (by omega), if_neg (by omega), hown]
      simp only [hterm, if_pos]
      exact ih hrest

/-- What `HandleAppendEntries` does when it answers with success. -/
structure Accepts (n : Node) (req : AppendEntriesRequest) (n' : Node) : Prop where
  healthy : n.degraded = false
  term : n.currentTerm ≤ req.term
  prev : n.PrevMatches req
  log : n.MergesTo (req.prevLogIndex + 1) req.entries n'.log
  snapshotIndex : n'.snapshotIndex = n.snapshotIndex
  snapshotTerm : n'.snapshotTerm = n.snapshotTerm
  commit : n'.commitIndex =
    if n.commitIndex < req.leaderCommit then min req.leaderCommit n'.lastLogIndex else n.commitIndex
  currentTerm : n'.currentTerm = req.term
  degraded : n'.degraded = false
  follower : n'.asFollower = n'

/-- Only the log and its offset matter to the preceding entry. -/
theorem PrevMatches.keep {n' : Node} (h : n.PrevMatches req) (hindex : n'.snapshotIndex = n.snapshotIndex)
    (hterm : n'.snapshotTerm = n.snapshotTerm) (hlog : n'.log = n.log) : n'.PrevMatches req := by
  have hentry := entryAt_congr hindex hlog req.prevLogIndex
  have hlast := lastLogIndex_congr hindex hlog
  exact ⟨hlast ▸ h.reached, fun hlt => hentry ▸ h.entry (hindex ▸ hlt), fun heq => hterm ▸ h.boundary (hindex ▸ heq)⟩

/-- Only the log and its offset matter to what is held. -/
theorem Holds.keep {n' : Node} (h : n.Holds index entries) (hindex : n'.snapshotIndex = n.snapshotIndex)
    (hlog : n'.log = n.log) : n'.Holds index entries := by
  intro j e he
  rw [hindex, entryAt_congr hindex hlog]
  exact h j e he

/-- Only the log and its offset matter to merging. -/
theorem MergesTo.keep {n' : Node} (h : n.MergesTo index entries log) (hindex : n'.snapshotIndex = n.snapshotIndex)
    (hlog : n'.log = n.log) : n'.MergesTo index entries log := by
  have hlast := lastLogIndex_congr hindex hlog
  cases h with
  | held hheld =>
    rw [← hlog]
    exact .held (hheld.keep hindex hlog)
  | append hsplit hheld hsnap hbehind =>
    rw [← hlog]
    exact .append hsplit (hheld.keep hindex hlog) (hindex ▸ hsnap) (hlast ▸ hbehind)
  | replace hsplit hheld hown hterm =>
    rw [← hlog, ← hindex]
    exact .replace hsplit (hheld.keep hindex hlog) ((entryAt_congr hindex hlog _).trans hown) hterm

/-- A conflict is not a match. -/
theorem PrevConflict.not_matches {resp : AppendEntriesResponse} (h : n.PrevConflict req resp) :
    ¬n.PrevMatches req := by
  intro hmatches
  cases h with
  | missing hmissing =>
    have := hmatches.reached
    omega
  | term hown hterm =>
    obtain ⟨own, hown', hterm'⟩ := hmatches.entry (entryAt_eq_some hown).1
    rw [hown] at hown'
    cases hown'
    exact hterm hterm'
  | boundary hprev hterm => exact hterm (hmatches.boundary hprev)

/-- What `HandleAppendEntries` does when it reports a conflict. -/
structure Rejects (n : Node) (req : AppendEntriesRequest) (n' : Node) : Prop where
  healthy : n.degraded = false
  term : n.currentTerm ≤ req.term
  conflict : ¬n.PrevMatches req
  log : n'.log = n.log
  snapshotIndex : n'.snapshotIndex = n.snapshotIndex
  snapshotTerm : n'.snapshotTerm = n.snapshotTerm
  currentTerm : n'.currentTerm = req.term
  degraded : n'.degraded = false

/-- The ways in which `HandleAppendEntries` ends; storage errors only where storage can fail. -/
inductive Answers (n : Node) (req : AppendEntriesRequest) (faults : Prop) :
    Node × Except RaftError AppendEntriesResponse → Prop
  | degraded (hdegraded : n.degraded = true) : Answers n req faults (n, .error .nodeDegraded)
  | stale (hstale : req.term < n.currentTerm) : Answers n req faults (n, .ok (n.rejection 0 0))
  | failed {n' : Node} (hfaults : faults) : Answers n req faults (n', .error .storage)
  | rejected {n' : Node} {resp : AppendEntriesResponse} (hrejects : n.Rejects req n')
      (hterm : resp.term = req.term) (hsuccess : resp.success = false) : Answers n req faults (n', .ok resp)
  | accepted {n' : Node} (haccepts : n.Accepts req n') : Answers n req faults (n', .ok n'.acceptance)

/-- In the current term a request is answered as its check and its entries tell. -/
theorem appendFromLeader_answers {n₁ : Node} (hindex : n₁.snapshotIndex = n.snapshotIndex)
    (hsnapTerm : n₁.snapshotTerm = n.snapshotTerm) (hlog : n₁.log = n.log) (hcommit : n₁.commitIndex = n.commitIndex)
    (hdegraded : n₁.degraded = false) (hhealthy : n.degraded = false) (hterm : n₁.currentTerm = req.term)
    (hle : n.currentTerm ≤ req.term) :
    (n₁.appendFromLeader req).Ensures faults (fun _ => faults) (fun r _ => n.Answers req faults r) disk := by
  refine appendFromLeader_rule (fun resp hconflict => ?_) fun hprev => ?_
  · have hnot : ¬n.PrevMatches req := fun h => hconflict.not_matches (h.keep hindex hsnapTerm hlog)
    refine .rejected ⟨hhealthy, hle, hnot, hlog, hindex, hsnapTerm, hterm, hdegraded⟩ ?_ ?_ <;> cases hconflict
    all_goals first | exact hterm | rfl
  · have hprev' : n.PrevMatches req := hprev.keep hindex.symm hsnapTerm.symm hlog.symm
    refine merges_mergeEntries (fun hf n' d => ⟨fun e he => ?_, nofun⟩) fun log d hmerges => ⟨nofun, fun _ => ?_⟩
    · cases he
      exact .failed hf
    · have hmerges' : n.MergesTo (req.prevLogIndex + 1) req.entries log := hmerges.keep hindex.symm hlog.symm
      refine followCommit_rule (fun hstay => ⟨nofun, fun _ => ?_⟩) fun hmove =>
        ⟨fun hf => ⟨hf, fun e he => ?_, nofun⟩, nofun, fun _ => ?_⟩
      · refine .accepted ⟨hhealthy, hle, hprev', hmerges', hindex, hsnapTerm, ?_, hterm, hdegraded, rfl⟩
        rw [if_neg (by rw [← hcommit]; exact Int.not_lt.mpr hstay)]
        exact hcommit
      · cases he
        exact .failed hf
      · refine .accepted ⟨hhealthy, hle, hprev', hmerges', hindex, hsnapTerm, ?_, hterm, hdegraded, rfl⟩
        rw [if_pos (by rw [← hcommit]; exact hmove)]
        rfl

/-- Every call of `HandleAppendEntries` ends in one of these ways. -/
theorem handleAppendEntries_answers :
    (n.handleAppendEntries req).Ensures faults (fun _ => faults) (fun r _ => n.Answers req faults r) disk := by
  refine handleAppendEntries_rule (fun hdegraded => .degraded hdegraded) (fun _ hstale => .stale hstale)
    (fun hhealthy hlt => ⟨fun hf => ⟨hf, .failed hf⟩, ?_⟩) fun hhealthy hsame => ?_
  · exact appendFromLeader_answers rfl rfl rfl rfl hhealthy hhealthy rfl (Int.le_of_lt hlt)
  · exact appendFromLeader_answers rfl rfl rfl rfl hhealthy hhealthy hsame.symm (Int.le_of_eq hsame.symm)

/-- What a run that answers with success has done. -/
theorem accepts_of_run {fates : List Fate} {n' : Node} {resp : AppendEntriesResponse} {disk' : PersistentState}
    (hrun : (n.handleAppendEntries req).run fates disk = (.returned (n', .ok resp), disk'))
    (hsuccess : resp.success = true) : n.Accepts req n' := by
  have hanswers := StorageProgram.Ensures.of_returned handleAppendEntries_answers (Or.inl trivial) hrun
  cases hanswers with
  | stale => cases hsuccess
  | rejected _ _ hfailure =>
    rw [hsuccess] at hfailure
    cases hfailure
  | accepted haccepts => exact haccepts

/-- The log ends where it did if it had all entries of the request, and with these entries otherwise. -/
theorem Accepts.lastLogIndex {n' : Node} (h : n.Accepts req n') :
    (n.Holds (req.prevLogIndex + 1) req.entries ∧ n'.lastLogIndex = n.lastLogIndex) ∨
      (¬n.Holds (req.prevLogIndex + 1) req.entries ∧ n'.lastLogIndex = req.prevLogIndex + req.entries.length) := by
  have hreached := h.prev.reached
  by_cases hheld : n.Holds (req.prevLogIndex + 1) req.entries
  · exact Or.inl ⟨hheld, lastLogIndex_congr h.snapshotIndex (h.log.eq_of_holds hheld)⟩
  · refine Or.inr ⟨hheld, ?_⟩
    have hend := h.log.end_of_not_holds (by omega) hheld
    rw [Node.lastLogIndex, h.snapshotIndex]
    omega

/-- **When a follower commits only what was verified.** The commit index after an accepted request exceeds
neither the old one nor the request's last index, exactly if the leader's commit index or the follower's last
index does not, or the follower lacked some of the entries. Otherwise what it has behind the request is
committed unseen. -/
theorem follower_commits_verified_iff {fates : List Fate} {n' : Node} {resp : AppendEntriesResponse}
    {disk' : PersistentState} (hrun : (n.handleAppendEntries req).run fates disk = (.returned (n', .ok resp), disk'))
    (hsuccess : resp.success = true) :
    n'.commitIndex ≤ max n.commitIndex (req.prevLogIndex + req.entries.length) ↔
      req.leaderCommit ≤ max n.commitIndex (req.prevLogIndex + req.entries.length) ∨
      n.lastLogIndex ≤ max n.commitIndex (req.prevLogIndex + req.entries.length) ∨
      ¬n.Holds (req.prevLogIndex + 1) req.entries := by
  have haccepts := accepts_of_run hrun hsuccess
  have hcommit := haccepts.commit
  rcases haccepts.lastLogIndex with ⟨hheld, hlast⟩ | ⟨hheld, hlast⟩
  · rw [hlast] at hcommit
    split at hcommit <;> simp only [hheld, not_true_eq_false, or_false] <;> omega
  · rw [hlast] at hcommit
    split at hcommit <;> simp only [hheld, not_false_eq_true, or_true, iff_true] <;> omega

end Node

/-- A follower with two entries of term 1, of which the leader of term 2 has only the first. -/
def followerAhead : Node :=
  { Node.blank "b" ["a", "c"] with
    currentTerm := 1
    log := [{ term := 1, type := entryCommand, command := [1] }, { term := 1, type := entryCommand, command := [2] }] }

/-- A heartbeat of term 2 behind the first entry. -/
def heartbeat (leaderCommit : Int) : AppendEntriesRequest where
  term := 2
  leaderID := "a"
  prevLogIndex := 1
  prevLogTerm := 1
  entries := []
  leaderCommit := leaderCommit

/-- The heartbeat commits the entry that it is about. -/
theorem follower_commits_verified_by_heartbeat :
    ∃ n' resp disk', (followerAhead.handleAppendEntries (heartbeat 1)).run [] .empty =
        (.returned (n', .ok resp), disk') ∧ resp.success = true ∧
      n'.commitIndex ≤ max followerAhead.commitIndex ((heartbeat 1).prevLogIndex + (heartbeat 1).entries.length) := by
  have hrun : ∃ n' resp disk', (followerAhead.handleAppendEntries (heartbeat 1)).run [] .empty =
      (.returned (n', .ok resp), disk') ∧ resp.success = true := ⟨_, _, _, rfl, rfl⟩
  obtain ⟨n', resp, disk', hreturned, hsuccess⟩ := hrun
  have hiff := Node.follower_commits_verified_iff hreturned hsuccess
  exact ⟨n', resp, disk', hreturned, hsuccess, hiff.mpr (Or.inl (by decide))⟩

/-- A heartbeat with a later commit index also commits the follower's second entry, which it says nothing
about. -/
theorem follower_commits_unverified :
    followerAhead.snapshotIndex ≤ followerAhead.commitIndex ∧
      followerAhead.commitIndex ≤ followerAhead.lastLogIndex ∧
      ∃ n' resp disk', (followerAhead.handleAppendEntries (heartbeat 2)).run [] .empty =
          (.returned (n', .ok resp), disk') ∧ resp.success = true ∧ n'.commitIndex = 2 ∧
        max followerAhead.commitIndex ((heartbeat 2).prevLogIndex + (heartbeat 2).entries.length) = 1 :=
  ⟨by decide, by decide, _, _, _, rfl, rfl, rfl, rfl⟩

end ConsensusLab.Raft
