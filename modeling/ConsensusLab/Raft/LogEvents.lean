import ConsensusLab.Raft.HandlerRules
import ConsensusLab.Raft.ReplicationRules

/-!
# What a step does to the log and its stored copy

Whatever becomes of its storage calls, a section does at most one thing to the node's
log and snapshot, and the disk shows that thing or the part of it that was reached. The
few things there are, and which input can cause which, are named here once; a crash
leaves the disk as one of them does.
-/

namespace ConsensusLab.Raft

open Foundation

/-- The log of a node with its snapshots and how far it has been applied. -/
def Node.holding (n : Node) : Int × Int × List LogEntry × Option Snapshot × Option Snapshot × Int :=
  (n.snapshotIndex, n.snapshotTerm, n.log, n.snapshot, n.pendingSnapshot, n.lastApplied)

/-- The log and the snapshot on disk. -/
def PersistentState.files (d : PersistentState) : Int × List LogEntry × Option Snapshot :=
  (d.logBase, d.log, d.snapshot)

/-- What can happen to a log. A snapshot may be saved without the log being replaced on disk. -/
inductive LogEvent
  | none
  | append (entries : List LogEntry)
  | truncate (index : Int)
  | replace (index : Int) (entries : List LogEntry)
  | install (snap : Snapshot) (stored : Bool)
  | compact (snap : Snapshot) (stored : Bool)

namespace LogEvent

/-- The node after an event. -/
def node (n : Node) : LogEvent → Node
  | none => n
  | append entries => { n with log := n.log ++ entries }
  | truncate index => { n with log := n.log.take (index - n.snapshotIndex - 1).toNat }
  | replace index entries => { n with log := n.log.take (index - n.snapshotIndex - 1).toNat ++ entries }
  | install snap _ => n.adoptSnapshot snap
  | compact snap _ => n.compactTo snap

/-- The disk with a snapshot saved, and the log replaced by what is behind it or not. -/
def saved (d : PersistentState) (snap : Snapshot) (log : List LogEntry) : Bool → PersistentState
  | true => { d with snapshot := some snap, logBase := snap.lastIncludedIndex, log := log }
  | false => { d with snapshot := some snap }

/-- The disk after an event. -/
def disk (n : Node) (d : PersistentState) : LogEvent → PersistentState
  | none => d
  | append entries => { d with log := d.log ++ entries }
  | truncate index => { d with log := d.log.take (max 0 (index - n.snapshotIndex - 1)).toNat }
  | replace index entries =>
    { d with log := d.log.take (max 0 (index - n.snapshotIndex - 1)).toNat ++ entries }
  | install snap stored => saved d snap (n.adoptSnapshot snap).log stored
  | compact snap stored => saved d snap (n.compactTo snap).log stored

/-- The entries of a request up to the first that the node does not have. -/
structure Splits (n : Node) (req : AppendEntriesRequest) (held rest : List LogEntry) : Prop where
  term : n.currentTerm ≤ req.term
  entries : req.entries = held ++ rest
  holds : n.Holds (req.prevLogIndex + 1) held

/-- Which input can cause which event. -/
inductive Arises (n : Node) : Input → LogEvent → Prop
  | none (input : Input) : Arises n input .none
  | append {req : AppendEntriesRequest} {held rest : List LogEntry} (hsplit : Splits n req held rest)
      (hlast : req.prevLogIndex + held.length = n.lastLogIndex) (hrest : rest ≠ []) :
      Arises n (.receive (.append req)) (.append rest)
  | truncate {req : AppendEntriesRequest} {held rest : List LogEntry} {entry own : LogEntry}
      (hsplit : Splits n req held (entry :: rest))
      (hown : n.entryAt (req.prevLogIndex + 1 + held.length) = some own) (hterm : own.term ≠ entry.term) :
      Arises n (.receive (.append req)) (.truncate (req.prevLogIndex + 1 + held.length))
  | replace {req : AppendEntriesRequest} {held rest : List LogEntry} {entry own : LogEntry}
      (hsplit : Splits n req held (entry :: rest))
      (hown : n.entryAt (req.prevLogIndex + 1 + held.length) = some own) (hterm : own.term ≠ entry.term) :
      Arises n (.receive (.append req)) (.replace (req.prevLogIndex + 1 + held.length) (entry :: rest))
  | install {req : InstallSnapshotRequest} (stored : Bool) (hdegraded : n.degraded = false)
      (hterm : n.currentTerm ≤ req.term) (hindex : n.snapshotIndex ≤ req.lastIncludedIndex) :
      Arises n (.receive (.install req)) (.install req.snapshot stored)
  | propose {cmd : Bytes} (hrole : n.role = .leader) :
      Arises n (.startCommand cmd) (.append [n.newEntry cmd])
  | compact {index : Int} {data : Bytes} {entry : LogEntry} (stored : Bool)
      (hentry : n.entryAt index = some entry) :
      Arises n (.takeSnapshot index data) (.compact (n.snapshotAt index entry data) stored)

/-- The calls include one that writes to the stored log what the event needs. -/
def ShownBy (calls : List StorageCall) : LogEvent → Prop
  | append entries => .appendLog entries ∈ calls
  | truncate _ | replace _ _ => ∃ keepN, .truncateLog keepN ∈ calls
  | none | install _ _ | compact _ _ => True

/-- Further calls do not hide an event. -/
theorem ShownBy.mono {ev : LogEvent} {calls calls' : List StorageCall} (h : ev.ShownBy calls)
    (hcalls : calls ⊆ calls') : ev.ShownBy calls' := by
  cases ev with
  | append => exact hcalls h
  | truncate | replace =>
    obtain ⟨keepN, hmem⟩ := h
    exact ⟨keepN, hcalls hmem⟩
  | none | install | compact => trivial

end LogEvent

/-- A section that an input runs has led to this node and disk. -/
def Leads (n : Node) (d : PersistentState) (input : Input) (n' : Node) (d' : PersistentState) : Prop :=
  ∃ ev : LogEvent, ev.Arises n input ∧ n'.holding = (ev.node n).holding ∧
    d'.files = (ev.disk n d).files

/-- A section that an input runs has been interrupted and left this disk. -/
def Leaves (n : Node) (d : PersistentState) (input : Input) (d' : PersistentState) : Prop :=
  ∃ ev : LogEvent, ev.Arises n input ∧ d'.files = (ev.disk n d).files

/-- The same for a disk that has recorded the calls made so far. -/
def LeadsBy (n : Node) (d : PersistentState) (input : Input) (n' : Node)
    (s : PersistentState × List StorageCall) : Prop :=
  ∃ ev : LogEvent, ev.Arises n input ∧ ev.ShownBy s.2 ∧ n'.holding = (ev.node n).holding ∧
    s.1.files = (ev.disk n d).files

/-- The same for an interrupted section. -/
def LeavesBy (n : Node) (d : PersistentState) (input : Input) (s : PersistentState × List StorageCall) : Prop :=
  ∃ ev : LogEvent, ev.Arises n input ∧ ev.ShownBy s.2 ∧ s.1.files = (ev.disk n d).files

variable {n n' : Node} {d d' : PersistentState} {input : Input} {s s' : PersistentState × List StorageCall}

/-- Nothing has happened to the log. -/
theorem Leads.same (hnode : n'.holding = n.holding) (hdisk : d'.files = d.files) : Leads n d input n' d' :=
  ⟨.none, .none input, hnode, hdisk⟩

/-- Nothing has happened to the stored log. -/
theorem Leaves.same (hdisk : d'.files = d.files) : Leaves n d input d' :=
  ⟨.none, .none input, hdisk⟩

/-- Nothing has happened to the log, and that needs no calls. -/
theorem LeadsBy.same (hnode : n'.holding = n.holding) (hdisk : s.1.files = d.files) : LeadsBy n d input n' s :=
  ⟨.none, .none input, trivial, hnode, hdisk⟩

/-- Nothing has happened to the stored log, and that needs no calls. -/
theorem LeavesBy.same (hdisk : s.1.files = d.files) : LeavesBy n d input s :=
  ⟨.none, .none input, trivial, hdisk⟩

/-- Only the log, the snapshots, the files and the calls matter. -/
theorem LeadsBy.keep {n'' : Node} (h : LeadsBy n d input n' s) (hnode : n''.holding = n'.holding)
    (hdisk : s'.1.files = s.1.files) (hcalls : s.2 ⊆ s'.2) : LeadsBy n d input n'' s' := by
  obtain ⟨ev, harises, hshown, hn, hd⟩ := h
  exact ⟨ev, harises, hshown.mono hcalls, hnode.trans hn, hdisk.trans hd⟩

/-- Whatever a section has led to, it leaves if it is interrupted there. -/
theorem LeadsBy.leaves (h : LeadsBy n d input n' s) : LeavesBy n d input s := by
  obtain ⟨ev, harises, hshown, _, hd⟩ := h
  exact ⟨ev, harises, hshown, hd⟩

/-- The effect of a call on a disk that keeps a record. -/
abbrev StorageCall.recorded : StorageCall → PersistentState × List StorageCall → PersistentState × List StorageCall :=
  StorageProgram.recording StorageCall.effect

/-- A section that leads somewhere by its calls leads there. -/
theorem leads_of_recorded {A : Type} {p : Section A} {f : A → Node}
    (h : StorageProgram.Ensures StorageCall.recorded True (LeavesBy n d input)
      (fun r s => LeadsBy n d input (f r) s) p (d, [])) :
    p.Ensures True (Leaves n d input) (fun r d' => Leads n d input (f r) d') d := by
  refine StorageProgram.Ensures.of_recording (h.mono ?_ ?_)
  · exact fun _ ⟨ev, harises, _, hd⟩ => ⟨ev, harises, hd⟩
  · exact fun _ _ ⟨ev, harises, _, hn, hd⟩ => ⟨ev, harises, hn, hd⟩

section Sections

/-- Handling a vote request. -/
theorem leads_handleRequestVote (req : RequestVoteRequest) :
    (n.handleRequestVote req).Ensures True (Leaves n d input) (fun r d' => Leads n d input r.1 d') d := by
  have hcast : ∀ {n₁ : Node} {d₁ : PersistentState}, n₁.holding = n.holding → d₁.files = d.files →
      (n₁.castVote req).Ensures True (Leaves n d input) (fun r d' => Leads n d input r.1 d') d₁ :=
    fun hn hd => Node.castVote_rule (.same hn hd) fun _ _ => ⟨fun _ => ⟨.same hd, .same hn hd⟩, .same hn hd⟩
  exact Node.handleRequestVote_rule (fun _ => .same rfl rfl) (fun _ _ => .same rfl rfl)
    (fun _ _ => ⟨fun _ => ⟨.same rfl, .same rfl rfl⟩, hcast rfl rfl⟩) (fun _ _ => hcast rfl rfl)

/-- An entry behind the log comes right behind it: what precedes it is held. -/
theorem Node.PrevMatches.next {req : AppendEntriesRequest} {held : List LogEntry} (h : n.PrevMatches req)
    (hheld : n.Holds (req.prevLogIndex + 1) held)
    (hlast : n.lastLogIndex < req.prevLogIndex + 1 + held.length) :
    req.prevLogIndex + held.length = n.lastLogIndex := by
  have hreached := h.reached
  have hle := hheld.le_lastLogIndex (by omega)
  omega

/-- Merging entries into a log. -/
theorem leadsBy_mergeEntries {req : AppendEntriesRequest} (n₁ : Node) (hnode : n₁.holding = n.holding)
    (hdisk : s.1.files = d.files) (hterm : n.currentTerm ≤ req.term) (hprev : n₁.PrevMatches req) :
    StorageProgram.Ensures StorageCall.recorded True (LeavesBy n d (.receive (.append req)))
      (fun r s' => LeadsBy n d (.receive (.append req)) r.1 s')
      (n₁.mergeEntries (req.prevLogIndex + 1) req.entries) s := by
  obtain ⟨hindex, hsnapterm, hlog, hsnapshot, hpending, happlied⟩ :
      n₁.snapshotIndex = n.snapshotIndex ∧ n₁.snapshotTerm = n.snapshotTerm ∧ n₁.log = n.log ∧
        n₁.snapshot = n.snapshot ∧ n₁.pendingSnapshot = n.pendingSnapshot ∧
        n₁.lastApplied = n.lastApplied := by
    simpa only [Node.holding, Prod.mk.injEq] using hnode
  obtain ⟨d₁, calls⟩ := s
  obtain ⟨hbase, hstored, hfile⟩ : d₁.logBase = d.logBase ∧ d₁.log = d.log ∧ d₁.snapshot = d.snapshot := by
    simpa only [PersistentState.files, Prod.mk.injEq] using hdisk
  have hentry : ∀ i, n₁.entryAt i = n.entryAt i := fun i => by
    rw [Node.entryAt, Node.entryAt, hindex, hlog]
  have hlast : n₁.lastLogIndex = n.lastLogIndex := by rw [Node.lastLogIndex, Node.lastLogIndex, hindex, hlog]
  have hsplit : ∀ {held rest : List LogEntry}, req.entries = held ++ rest →
      n₁.Holds (req.prevLogIndex + 1) held → LogEvent.Splits n req held rest := by
    intro held rest hentries hheld
    refine ⟨hterm, hentries, fun j e he => ?_⟩
    have := hheld j e he
    rwa [hindex, hentry] at this
  have hnext : ∀ {held : List LogEntry}, n₁.Holds (req.prevLogIndex + 1) held →
      n₁.lastLogIndex < req.prevLogIndex + 1 + held.length →
      req.prevLogIndex + held.length = n.lastLogIndex :=
    fun hheld hlt => hlast ▸ hprev.next hheld hlt
  refine Node.mergeEntries_rule (fun _ => .same hnode hdisk) (fun held entry rest hentries hheld _ hlt => ?_)
    fun held entry rest own hentries hheld hown hconflict => ?_
  · refine ⟨fun _ => ⟨.same hdisk, .same hnode hdisk⟩, .append (entry :: rest),
      .append (hsplit hentries hheld) (hnext hheld hlt) (List.cons_ne_nil _ _), List.mem_cons_self, ?_, ?_⟩
    · simp only [Node.holding, LogEvent.node, hindex, hsnapterm, hlog, hsnapshot, hpending, happlied]
    · change (d₁.logBase, d₁.log ++ entry :: rest, d₁.snapshot) = _
      rw [hbase, hstored, hfile]
      rfl
  · rw [hentry] at hown
    have hcut : LeadsBy n d (.receive (.append req))
        { n₁ with log := n₁.log.take (req.prevLogIndex + 1 + held.length - n₁.snapshotIndex - 1).toNat }
        (StorageCall.recorded (.truncateLog (max 0 (req.prevLogIndex + 1 + held.length - n₁.snapshotIndex - 1)))
          (d₁, calls)) := by
      refine ⟨_, .truncate (hsplit hentries hheld) hown hconflict, ⟨_, List.mem_cons_self⟩, ?_, ?_⟩
      · simp only [Node.holding, LogEvent.node, hindex, hsnapterm, hlog, hsnapshot, hpending, happlied]
      · change (d₁.logBase, d₁.log.take _, d₁.snapshot) = _
        rw [hbase, hstored, hfile, hindex]
        rfl
    refine ⟨fun _ => ⟨.same hdisk, .same hnode hdisk⟩, fun _ => ⟨hcut.leaves, hcut⟩, _,
      .replace (hsplit hentries hheld) hown hconflict, ⟨_, List.mem_cons_of_mem _ List.mem_cons_self⟩, ?_, ?_⟩
    · simp only [Node.holding, LogEvent.node, hindex, hsnapterm, hlog, hsnapshot, hpending, happlied]
    · change (d₁.logBase, d₁.log.take _ ++ entry :: rest, d₁.snapshot) = _
      rw [hbase, hstored, hfile, hindex]
      rfl

/-- Handling entries. -/
theorem leadsBy_handleAppendEntries (req : AppendEntriesRequest) :
    StorageProgram.Ensures StorageCall.recorded True (LeavesBy n d (.receive (.append req)))
      (fun r s => LeadsBy n d (.receive (.append req)) r.1 s) (n.handleAppendEntries req) (d, []) := by
  have hcommit : ∀ {n₁ : Node} {s : PersistentState × List StorageCall}, LeadsBy n d (.receive (.append req)) n₁ s →
      StorageProgram.Ensures StorageCall.recorded True (LeavesBy n d (.receive (.append req)))
        (fun r s' => LeadsBy n d (.receive (.append req)) r.1 s') (n₁.followCommit req.leaderCommit) s := by
    intro n₁ s h
    exact Node.followCommit_rule (fun _ => h) fun _ =>
      ⟨fun _ => ⟨h.leaves, h.keep rfl rfl (List.Subset.refl _)⟩, h.keep rfl rfl (List.subset_cons_self ..)⟩
  have happend : ∀ {n₁ : Node} {s : PersistentState × List StorageCall}, n₁.holding = n.holding →
      s.1.files = d.files → n.currentTerm ≤ req.term →
      StorageProgram.Ensures StorageCall.recorded True (LeavesBy n d (.receive (.append req)))
        (fun r s' => LeadsBy n d (.receive (.append req)) r.1 s') (n₁.appendFromLeader req) s := by
    intro n₁ s hn hd hterm
    refine Node.appendFromLeader_rule (fun _ _ => .same hn hd) fun hprev =>
      (leadsBy_mergeEntries n₁.asFollower hn hd hterm hprev).mono (fun _ h => h) ?_
    exact fun merged s' hm => ⟨fun _ _ => hm, fun _ => (hcommit hm).mono (fun _ h => h)
      fun final _ hfinal => ⟨fun _ _ => hfinal, fun _ => hfinal⟩⟩
  exact Node.handleAppendEntries_rule (fun _ => .same rfl rfl) (fun _ _ => .same rfl rfl)
    (fun _ hterm => ⟨fun _ => ⟨.same rfl, .same rfl rfl⟩, happend rfl rfl (Int.le_of_lt hterm)⟩)
    (fun _ hterm => happend rfl rfl (Int.le_of_eq hterm.symm))

/-- Installing a snapshot over equal logs gives equal logs. -/
theorem Node.adoptSnapshot_holding (hnode : n'.holding = n.holding) (snap : Snapshot) :
    (n'.adoptSnapshot snap).holding = (n.adoptSnapshot snap).holding := by
  cases n
  cases n'
  simp only [Node.holding, Prod.mk.injEq] at hnode
  obtain ⟨rfl, rfl, rfl, rfl, rfl, rfl⟩ := hnode
  rfl

/-- Handling a snapshot. -/
theorem leads_handleInstallSnapshot (req : InstallSnapshotRequest) :
    (n.handleInstallSnapshot req).Ensures True (Leaves n d (.receive (.install req)))
      (fun r d' => Leads n d (.receive (.install req)) r.1 d') d := by
  have hinstall : ∀ {n₁ : Node} {d₁ : PersistentState}, n₁.holding = n.holding → d₁.files = d.files →
      n.degraded = false → n.currentTerm ≤ req.term →
      (n₁.installFromLeader req).Ensures True (Leaves n d (.receive (.install req)))
        (fun r d' => Leads n d (.receive (.install req)) r.1 d') d₁ := by
    intro n₁ d₁ hn hd hhealthy hterm
    have hadopt := Node.adoptSnapshot_holding hn req.snapshot
    refine Node.installFromLeader_rule (fun _ => .same hn hd) fun hnew => ⟨fun _ => ⟨.same hd, .same hn hd⟩, ?_⟩
    simp only [Node.holding, Prod.mk.injEq] at hn
    have hindex : n.snapshotIndex ≤ req.lastIncludedIndex := hn.1 ▸ hnew
    have harises : ∀ stored, LogEvent.Arises n (.receive (.install req)) (.install req.snapshot stored) :=
      fun stored => .install stored hhealthy hterm hindex
    have hlog : (n₁.asFollower.adoptSnapshot req.snapshot).log = (n.adoptSnapshot req.snapshot).log := by
      simp only [Node.holding, Prod.mk.injEq] at hadopt
      exact hadopt.2.2.1
    simp only [PersistentState.files, Prod.mk.injEq] at hd
    -- the disk when the log has not been replaced, and when it has
    have hkept : ∀ {d₂ : PersistentState}, d₂.logBase = d₁.logBase → d₂.log = d₁.log →
        d₂.snapshot = some req.snapshot →
        d₂.files = (LogEvent.disk n d (.install req.snapshot false)).files := by
      intro d₂ hbase hold hsnap
      simp only [PersistentState.files, LogEvent.disk, LogEvent.saved, hbase, hold, hsnap, hd]
    have hreplaced : ∀ {d₂ : PersistentState}, d₂.logBase = req.lastIncludedIndex →
        d₂.log = (n₁.asFollower.adoptSnapshot req.snapshot).log → d₂.snapshot = some req.snapshot →
        d₂.files = (LogEvent.disk n d (.install req.snapshot true)).files := by
      intro d₂ hbase hnew hsnap
      rw [PersistentState.files, hbase, hnew, hsnap, hlog]
      rfl
    exact Node.applySnapshot_rule
      ⟨fun _ => ⟨⟨_, harises false, hkept rfl rfl rfl⟩, _, harises false, hadopt, hkept rfl rfl rfl⟩,
        _, harises true, hadopt, hreplaced rfl rfl rfl⟩
      fun _ => ⟨fun _ => ⟨⟨_, harises false, hkept rfl rfl rfl⟩, _, harises false, hadopt, hkept rfl rfl rfl⟩,
        _, harises true, hadopt, hreplaced rfl rfl rfl⟩
  exact Node.handleInstallSnapshot_rule (fun _ => .same rfl rfl) (fun _ _ => .same rfl rfl)
    (fun hhealthy hterm =>
      ⟨fun _ => ⟨.same rfl, .same rfl rfl⟩, hinstall rfl rfl hhealthy (Int.le_of_lt hterm)⟩)
    (fun hhealthy hterm => hinstall rfl rfl hhealthy (Int.le_of_eq hterm.symm))

/-- Starting an election. -/
theorem leads_startElection :
    n.startElection.Ensures True (Leaves n d input) (fun r d' => Leads n d input r.1 d') d :=
  Node.startElection_rule (fun _ => ⟨.same rfl, .same rfl rfl⟩) (.same rfl rfl)

/-- Stepping down. -/
theorem leads_stepDown (term : Int) :
    (n.stepDown term).Ensures True (Leaves n d input) (fun n' d' => Leads n d input n' d') d :=
  Node.stepDown_rule (fun _ => ⟨.same rfl, .same rfl rfl⟩) (.same rfl rfl)

/-- Reading a vote. -/
theorem leads_handleVoteResponse (votes majority : ℕ) (resp : RequestVoteResponse) :
    (n.handleVoteResponse votes majority resp).Ensures True (Leaves n d input)
      (fun r d' => Leads n d input r.1 d') d :=
  Node.handleVoteResponse_rule (fun _ => leads_stepDown _) (fun _ _ => .same rfl rfl)
    (fun _ _ _ => .same rfl rfl) (fun _ _ => .same rfl rfl)

/-- Advancing the commit index. -/
theorem leads_advanceCommitIndex (hnode : n'.holding = n.holding) :
    n'.advanceCommitIndex.Ensures True (Leaves n d input) (fun r d' => Leads n d input r.1 d') d :=
  Node.advanceCommitIndex_rule (fun _ => .same rfl) (.same hnode rfl) fun _ _ =>
    ⟨fun _ => .same hnode rfl, .same hnode rfl⟩

/-- Looking for a snapshot to send. -/
theorem leads_installSnapshotRequestForPeer (peerID : String) :
    (n.installSnapshotRequestForPeer peerID).Ensures True (Leaves n d input)
      (fun r d' => Leads n d input r.1 d') d :=
  Node.installSnapshotRequestForPeer_rule (fun _ _ => .same rfl) (fun _ => .same rfl rfl)
    (fun _ _ => .same rfl rfl) (fun _ _ => .same rfl rfl) (fun _ _ _ _ _ => .same rfl rfl)

/-- Building entries to send. -/
theorem leads_appendEntriesRequestForPeer (peerID : String) :
    (n.appendEntriesRequestForPeer peerID).Ensures True (Leaves n d input)
      (fun r d' => Leads n d input r.1 d') d :=
  Node.appendEntriesRequestForPeer_rule (fun _ _ _ => .same rfl) (fun _ => .same rfl rfl)
    (fun _ _ => .same rfl rfl) (fun _ _ _ _ => .same rfl rfl)

/-- Processing an AppendEntries response. -/
theorem leads_handleAppendEntriesResponse (peerID : String) (req : AppendEntriesRequest)
    (resp : AppendEntriesResponse) :
    (n.handleAppendEntriesResponse peerID req resp).Ensures True (Leaves n d input)
      (fun r d' => Leads n d input r.1 d') d :=
  Node.handleAppendEntriesResponse_rule (fun _ => leads_stepDown _) (fun _ _ => .same rfl rfl)
    (fun _ _ _ _ => .same rfl rfl) fun _ _ _ _ => leads_advanceCommitIndex rfl

/-- Processing an InstallSnapshot response. -/
theorem leads_handleInstallSnapshotResponse (peerID : String) (req : InstallSnapshotRequest)
    (resp : InstallSnapshotResponse) :
    (n.handleInstallSnapshotResponse peerID req resp).Ensures True (Leaves n d input)
      (fun n' d' => Leads n d input n' d') d :=
  Node.handleInstallSnapshotResponse_rule (fun _ => leads_stepDown _) (fun _ _ => .same rfl rfl)
    (fun _ _ _ => .same rfl rfl)

/-- Starting a command. -/
theorem leadsBy_startCommand (cmd : Bytes) :
    StorageProgram.Ensures StorageCall.recorded True (LeavesBy n d (.startCommand cmd))
      (fun r s => LeadsBy n d (.startCommand cmd) r.1 s) (n.startCommand cmd) (d, []) := by
  refine Node.startCommand_rule (fun _ => .same rfl rfl) (fun _ _ _ => ⟨.same rfl, .same rfl rfl⟩)
    fun _ hrole => ?_
  have hadded : LeadsBy n d (.startCommand cmd) (n.appended cmd)
      (StorageCall.recorded (.appendLog [n.newEntry cmd]) (d, [])) :=
    ⟨_, .propose hrole, List.mem_cons_self, rfl, rfl⟩
  have hmoved : StorageProgram.Ensures StorageCall.recorded True (LeavesBy n d (.startCommand cmd))
      (fun r s => LeadsBy n d (.startCommand cmd) r.1 s) (n.appended cmd).advanceCommitIndex
      (StorageCall.recorded (.appendLog [n.newEntry cmd]) (d, [])) :=
    Node.advanceCommitIndex_rule (fun _ => hadded.leaves) hadded fun _ _ =>
      ⟨fun _ => hadded.keep rfl rfl (List.Subset.refl _), hadded.keep rfl rfl (List.subset_cons_self ..)⟩
  refine hmoved.mono (fun _ h => h) fun moved s hm => ?_
  change LeadsBy n d _ (if moved.2 then moved.1.notifyApply else moved.1).signalReplicate s
  split <;> exact hm.keep rfl rfl (List.Subset.refl _)

/-- Compacting the log. -/
theorem leads_takeSnapshot (index : Int) (data : Bytes) :
    (n.takeSnapshot index data).Ensures True (Leaves n d (.takeSnapshot index data))
      (fun r d' => Leads n d (.takeSnapshot index data) r.1 d') d :=
  Node.takeSnapshot_rule (fun _ => .same rfl rfl) (fun _ => .same rfl rfl) fun _ hentry =>
    ⟨fun _ => ⟨.same rfl, .same rfl rfl⟩,
      fun _ => ⟨⟨_, .compact false hentry, rfl⟩, _, .compact false hentry, rfl, rfl⟩,
      _, .compact true hentry, rfl, rfl⟩

end Sections

/-- A step of a server as its log and its apply loop see it. -/
inductive Server.LogMove (sv : Server) : Input → Server × Effects → Prop
  /-- Something may have happened to the log, and the apply loop stays where it is. -/
  | leads {input : Input} {result : Server × Effects}
      (hleads : Leads sv.node sv.disk input result.1.node result.1.disk)
      (happlier : result.1.applier = sv.applier) (hdelivered : result.2.delivered = none) :
      LogMove sv input result
  /-- The process is started again. -/
  | lost {input : Input} {disk : PersistentState} {effects : Effects}
      (hleaves : Leaves sv.node sv.disk input disk) (hdelivered : effects.delivered = none)
      (hover : input = .restart ∨ effects.lost ≠ none) : LogMove sv input (sv.reboot disk, effects)
  | wakeApply (happlier : sv.applier = .parked) :
      LogMove sv .wakeApply
        ({ sv with node := { sv.node with applyNotify := false }, applier := .draining }, {})
  | drain (happlier : sv.applier = .draining) : LogMove sv .drain (Server.onDisk sv.disk sv.stepDrain)
  | sendSnapshot {snap : Snapshot} (happlier : sv.applier = .sendingSnapshot snap) :
      LogMove sv .sendSnapshot ({ sv with applier := .sentSnapshot snap },
        { delivered := some (.snapshot snap.data snap.lastIncludedIndex) })
  | recordSnapshot {snap : Snapshot} (happlier : sv.applier = .sentSnapshot snap) :
      LogMove sv .recordSnapshot
        ({ sv with node := sv.node.snapshotApplied snap, applier := .draining }, {})
  | park (happlier : sv.applier = .applying) : LogMove sv .pickEntry ({ sv with applier := .parked }, {})
  | pickEntry {entry : LogEntry} (happlier : sv.applier = .applying)
      (hcommit : sv.node.lastApplied < sv.node.commitIndex)
      (hentry : sv.node.entryAt (sv.node.lastApplied + 1) = some entry) :
      LogMove sv .pickEntry
        ({ sv with node := sv.node.picked, applier := .sendingEntry entry (sv.node.lastApplied + 1) }, {})
  | sendEntry {entry : LogEntry} {index : Int} (happlier : sv.applier = .sendingEntry entry index) :
      LogMove sv .sendEntry ({ sv with applier := .applying },
        { delivered := some (.command entry.command index) })

/-- A section that leads somewhere, performed by a server whose apply loop it does not move. -/
theorem Server.LogMove.perform {A : Type} {sv : Server} {fates : List Fate} {p : Section A}
    {next : A → PersistentState → Server × Effects} {f : A → Node}
    (hp : p.Ensures True (Leaves sv.node sv.disk input)
      (fun r d' => Leads sv.node sv.disk input (f r) d') sv.disk)
    (hnode : ∀ r disk, (next r disk).1.node = f r) (hdisk : ∀ r disk, (next r disk).1.disk = disk)
    (happlier : ∀ r disk, (next r disk).1.applier = sv.applier)
    (hdelivered : ∀ r disk, (next r disk).2.delivered = none) :
    sv.LogMove input (sv.perform fates p next) := by
  refine Server.perform_rule hp (Or.inl trivial) (fun r disk hleads => ?_) fun b disk hleaves => ?_
  · exact .leads (by rw [hnode, hdisk]; exact hleads) (happlier r disk) (hdelivered r disk)
  · exact .lost hleaves rfl (Or.inr nofun)

/-- Every step of a server is one of these. -/
theorem Server.Move.logMove {sv : Server} {fresh : ℕ} {fates : List Fate} {result : Server × Effects}
    (hmove : sv.Move fresh fates input result) : sv.LogMove input result := by
  have hquiet : ∀ {input : Input} {result : Server × Effects}, result.1.node.holding = sv.node.holding →
      result.1.disk = sv.disk → result.1.applier = sv.applier → result.2.delivered = none →
      sv.LogMove input result :=
    fun hnode hdisk happlier hdelivered => .leads (.same hnode (by rw [hdisk])) happlier hdelivered
  cases hmove with
  | restart => exact .lost (.same rfl) rfl (Or.inl rfl)
  | dispatch =>
    unfold NodeProcess.dispatch
    split
    · exact hquiet rfl rfl rfl rfl
    · split <;> exact hquiet rfl rfl rfl rfl
  | electionReset | electionTimeout | openPoll | pollTimeout | startRoundNotified | startRound | callFailed =>
    exact hquiet rfl rfl rfl rfl
  | startElection =>
    exact .perform leads_startElection (fun _ _ => rfl) (fun _ _ => rfl) (fun _ _ => rfl) fun _ _ => rfl
  | voteAnswered =>
    exact .perform (leads_handleVoteResponse ..) (fun _ _ => rfl) (fun _ _ => rfl) (fun _ _ => rfl) fun _ _ => rfl
  | visit =>
    refine .perform (leads_installSnapshotRequestForPeer _) ?_ ?_ ?_ ?_ <;> rintro ⟨node, _ | _ | req⟩ disk <;> rfl
  | appendTurn =>
    refine .perform (leads_appendEntriesRequestForPeer _) ?_ ?_ ?_ ?_ <;> rintro ⟨node, _ | _ | req⟩ disk <;> rfl
  | appendAnswered =>
    exact .perform (leads_handleAppendEntriesResponse ..) (fun _ _ => rfl) (fun _ _ => rfl) (fun _ _ => rfl)
      fun _ _ => rfl
  | installAnswered =>
    exact .perform (f := id) (leads_handleInstallSnapshotResponse ..) (fun _ _ => rfl) (fun _ _ => rfl)
      (fun _ _ => rfl) fun _ _ => rfl
  | signal =>
    refine hquiet ?_ rfl rfl rfl
    simp only [NodeProcess.stepSignal]
    split <;> split <;> rfl
  | finish | notify => exact hquiet rfl rfl rfl rfl
  | receive req =>
    cases req with
    | vote req =>
      refine .perform (leads_handleRequestVote req) ?_ ?_ ?_ ?_ <;> rintro ⟨node, _ | _⟩ disk <;> rfl
    | append req =>
      refine .perform (leads_of_recorded (leadsBy_handleAppendEntries req)) ?_ ?_ ?_ ?_ <;> rintro ⟨node, _ | _⟩ disk <;> rfl
    | install req =>
      refine .perform (leads_handleInstallSnapshot req) ?_ ?_ ?_ ?_ <;> rintro ⟨node, _ | _⟩ disk <;> rfl
  | startCommand cmd =>
    exact .perform (leads_of_recorded (leadsBy_startCommand cmd)) (fun _ _ => rfl) (fun _ _ => rfl) (fun _ _ => rfl) fun _ _ => rfl
  | takeSnapshot index data =>
    refine .perform (leads_takeSnapshot index data) ?_ ?_ ?_ ?_ <;> rintro ⟨node, _ | _⟩ disk <;> rfl
  | wakeApply happlier => exact .wakeApply happlier
  | drain happlier => exact .drain happlier
  | sendSnapshot happlier => exact .sendSnapshot happlier
  | recordSnapshot happlier => exact .recordSnapshot happlier
  | pickEntry happlier =>
    have hpick : sv.node.nextToApply.Ensures True (Leaves sv.node sv.disk .pickEntry)
        (fun r d' => d' = sv.disk ∧ (r = (sv.node, none) ∨ (sv.node.lastApplied < sv.node.commitIndex ∧
          ∃ entry, sv.node.entryAt (sv.node.lastApplied + 1) = some entry ∧
            r = (sv.node.picked, some (entry, sv.node.lastApplied + 1))))) sv.disk :=
      Node.nextToApply_rule (fun _ _ _ => .same rfl) ⟨rfl, Or.inl rfl⟩
        fun hcommit entry hentry => ⟨rfl, Or.inr ⟨hcommit, entry, hentry, rfl⟩⟩
    refine Server.perform_rule hpick (Or.inl trivial) ?_ fun b disk hleaves =>
      .lost hleaves rfl (Or.inr nofun)
    rintro r disk ⟨rfl, rfl | ⟨hcommit, entry, hentry, rfl⟩⟩
    · exact .park happlier
    · exact .pickEntry happlier hcommit hentry
  | sendEntry happlier => exact .sendEntry happlier

end ConsensusLab.Raft
