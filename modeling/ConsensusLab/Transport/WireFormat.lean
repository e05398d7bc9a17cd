import ConsensusLab.Raft.ApplyOrder

/-!
# The wire format of the Raft messages

The functions of `mapping.go` between the messages of the raft package and those of the
protocol buffers. A log entry on the wire has a term and a command but no type, so every
entry arrives as `EntryCommand`. All that a cluster sends is of that type: entries are
made by `StartCommand` and otherwise only copied, and therefore each message arrives as
it was sent.
-/

namespace ConsensusLab.Raft

open Foundation

variable {n : Node} {d : PersistentState} {input : Input} {P : LogEntry → Prop}

/-- Entries after an event of the log were there, come with the input, or were made by the node. -/
theorem LogEvent.Arises.forall_entries {ev : LogEvent} (h : ev.Arises n input)
    (hsent : ∀ req, input = .receive (.append req) → ∀ e ∈ req.entries, P e)
    (hnew : ∀ cmd, P (n.newEntry cmd)) (hnode : ∀ e ∈ n.log, P e) (hdisk : ∀ e ∈ d.log, P e) :
    (∀ e ∈ (ev.node n).log, P e) ∧ ∀ e ∈ (ev.disk n d).log, P e := by
  cases h with
  | none => exact ⟨hnode, hdisk⟩
  | @append req held rest hsplit =>
    have hrest : ∀ e ∈ rest, P e := fun e he =>
      hsent req rfl e (by rw [hsplit.entries]; exact List.mem_append_right _ he)
    exact ⟨List.forall_mem_append.mpr ⟨hnode, hrest⟩, List.forall_mem_append.mpr ⟨hdisk, hrest⟩⟩
  | truncate =>
    exact ⟨fun e he => hnode e (List.mem_of_mem_take he), fun e he => hdisk e (List.mem_of_mem_take he)⟩
  | @replace req held rest entry own hsplit =>
    have hrest : ∀ e ∈ entry :: rest, P e := fun e he =>
      hsent req rfl e (by rw [hsplit.entries]; exact List.mem_append_right _ he)
    exact ⟨List.forall_mem_append.mpr ⟨fun e he => hnode e (List.mem_of_mem_take he), hrest⟩,
      List.forall_mem_append.mpr ⟨fun e he => hdisk e (List.mem_of_mem_take he), hrest⟩⟩
  | @install req stored =>
    have hkept : ∀ e ∈ (n.adoptSnapshot req.snapshot).log, P e := by
      rw [Node.adoptSnapshot_log]
      exact fun e he => hnode e (List.mem_of_mem_drop he)
    cases stored with
    | true => exact ⟨hkept, hkept⟩
    | false => exact ⟨hkept, hdisk⟩
  | @propose cmd =>
    have hone : ∀ e ∈ [n.newEntry cmd], P e := List.forall_mem_singleton.mpr (hnew cmd)
    exact ⟨List.forall_mem_append.mpr ⟨hnode, hone⟩, List.forall_mem_append.mpr ⟨hdisk, hone⟩⟩
  | @compact index data entry stored =>
    have hkept : ∀ e ∈ (n.compactTo (n.snapshotAt index entry data)).log, P e :=
      fun e he => hnode e (List.mem_of_mem_drop he)
    cases stored with
    | true => exact ⟨hkept, hkept⟩
    | false => exact ⟨hkept, hdisk⟩

/-- A restarted node has entries of its disk only. -/
theorem mem_newNode_log {id : String} {peers : List String} {e : LogEntry} (he : e ∈ (newNode id peers d).log) :
    e ∈ d.log := by
  rw [newNode_log] at he
  exact List.mem_of_mem_drop he

/-- Entries after a step of a server were there, come with the input, or were made by the node. -/
theorem Server.LogMove.forall_entries {sv : Server} {result : Server × Effects} (h : sv.LogMove input result)
    (hsent : ∀ req, input = .receive (.append req) → ∀ e ∈ req.entries, P e)
    (hnew : ∀ cmd, P (sv.node.newEntry cmd)) (hnode : ∀ e ∈ sv.node.log, P e) (hdisk : ∀ e ∈ sv.disk.log, P e) :
    (∀ e ∈ result.1.node.log, P e) ∧ ∀ e ∈ result.1.disk.log, P e := by
  cases h with
  | leads hleads =>
    obtain ⟨ev, harises, hheld, hfiles⟩ := hleads
    simp only [Node.holding, PersistentState.files, Prod.mk.injEq] at hheld hfiles
    rw [hheld.2.2.1, hfiles.2.1]
    exact harises.forall_entries hsent hnew hnode hdisk
  | lost hleaves =>
    obtain ⟨ev, harises, hfiles⟩ := hleaves
    simp only [PersistentState.files, Prod.mk.injEq] at hfiles
    have hstored := (harises.forall_entries hsent hnew hnode hdisk).2
    rw [← hfiles.2.1] at hstored
    exact ⟨fun e he => hstored e (mem_newNode_log he), hstored⟩
  | wakeApply | drain | sendSnapshot | recordSnapshot | park | pickEntry | sendEntry => exact ⟨hnode, hdisk⟩

end ConsensusLab.Raft

namespace ConsensusLab.Transport

open Foundation Raft

/-! ## Messages of the protocol buffers -/

namespace RaftPB

/-- A log entry on the wire. -/
structure LogEntry where
  term : Int
  command : Bytes
  deriving DecidableEq, Repr

/-- The members of a cluster. -/
structure ClusterConfig where
  members : List String
  deriving DecidableEq, Repr

structure RequestVoteRequest where
  term : Int
  candidateId : String
  lastLogIndex : Int
  lastLogTerm : Int
  deriving DecidableEq, Repr

structure RequestVoteResponse where
  term : Int
  voteGranted : Bool
  deriving DecidableEq, Repr

structure AppendEntriesRequest where
  term : Int
  leaderId : String
  prevLogIndex : Int
  prevLogTerm : Int
  entries : List LogEntry
  leaderCommit : Int
  deriving DecidableEq, Repr

structure AppendEntriesResponse where
  term : Int
  success : Bool
  conflictIndex : Int
  conflictTerm : Int
  deriving DecidableEq, Repr

/-- The configuration is a message of its own and may be missing. -/
structure InstallSnapshotRequest where
  term : Int
  leaderId : String
  lastIncludedIndex : Int
  lastIncludedTerm : Int
  config : Option ClusterConfig
  data : Bytes
  deriving DecidableEq, Repr

structure InstallSnapshotResponse where
  term : Int
  deriving DecidableEq, Repr

end RaftPB

/-! ## Conversions -/

/-- `requestVoteRequestFromPB`. -/
def requestVoteRequestFromPB (pb : RaftPB.RequestVoteRequest) : RequestVoteRequest where
  term := pb.term
  candidateID := pb.candidateId
  lastLogIndex := pb.lastLogIndex
  lastLogTerm := pb.lastLogTerm

/-- `requestVoteRequestToPB`. -/
def requestVoteRequestToPB (r : RequestVoteRequest) : RaftPB.RequestVoteRequest where
  term := r.term
  candidateId := r.candidateID
  lastLogIndex := r.lastLogIndex
  lastLogTerm := r.lastLogTerm

/-- `requestVoteResponseFromPB`. -/
def requestVoteResponseFromPB (pb : RaftPB.RequestVoteResponse) : RequestVoteResponse where
  term := pb.term
  voteGranted := pb.voteGranted

/-- `requestVoteResponseToPB`. -/
def requestVoteResponseToPB (r : RequestVoteResponse) : RaftPB.RequestVoteResponse where
  term := r.term
  voteGranted := r.voteGranted

/-- An entry as `appendEntriesRequestFromPB` makes it: the type is left at zero. -/
def logEntryFromPB (e : RaftPB.LogEntry) : LogEntry where
  term := e.term
  type := 0
  command := e.command

/-- An entry as `appendEntriesRequestToPB` makes it. -/
def logEntryToPB (e : LogEntry) : RaftPB.LogEntry where
  term := e.term
  command := e.command

/-- `appendEntriesRequestFromPB`. -/
def appendEntriesRequestFromPB (pb : RaftPB.AppendEntriesRequest) : AppendEntriesRequest where
  term := pb.term
  leaderID := pb.leaderId
  prevLogIndex := pb.prevLogIndex
  prevLogTerm := pb.prevLogTerm
  entries := pb.entries.map logEntryFromPB
  leaderCommit := pb.leaderCommit

/-- `appendEntriesRequestToPB`. -/
def appendEntriesRequestToPB (r : AppendEntriesRequest) : RaftPB.AppendEntriesRequest where
  term := r.term
  leaderId := r.leaderID
  prevLogIndex := r.prevLogIndex
  prevLogTerm := r.prevLogTerm
  entries := r.entries.map logEntryToPB
  leaderCommit := r.leaderCommit

/-- `appendEntriesResponseFromPB`. -/
def appendEntriesResponseFromPB (pb : RaftPB.AppendEntriesResponse) : AppendEntriesResponse where
  term := pb.term
  success := pb.success
  conflictTerm := pb.conflictTerm
  conflictIndex := pb.conflictIndex

/-- `appendEntriesResponseToPB`. -/
def appendEntriesResponseToPB (r : AppendEntriesResponse) : RaftPB.AppendEntriesResponse where
  term := r.term
  success := r.success
  conflictIndex := r.conflictIndex
  conflictTerm := r.conflictTerm

/-- `clusterConfigFromPB`. -/
def clusterConfigFromPB : Option RaftPB.ClusterConfig → ClusterConfig
  | none => { members := [] }
  | some pb => { members := pb.members }

/-- `clusterConfigToPB`. -/
def clusterConfigToPB (cfg : ClusterConfig) : Option RaftPB.ClusterConfig :=
  some { members := cfg.members }

/-- `installSnapshotRequestFromPB`. -/
def installSnapshotRequestFromPB (pb : RaftPB.InstallSnapshotRequest) : InstallSnapshotRequest where
  term := pb.term
  leaderID := pb.leaderId
  lastIncludedIndex := pb.lastIncludedIndex
  lastIncludedTerm := pb.lastIncludedTerm
  config := clusterConfigFromPB pb.config
  data := pb.data

/-- `installSnapshotRequestToPB`. -/
def installSnapshotRequestToPB (r : InstallSnapshotRequest) : RaftPB.InstallSnapshotRequest where
  term := r.term
  leaderId := r.leaderID
  lastIncludedIndex := r.lastIncludedIndex
  lastIncludedTerm := r.lastIncludedTerm
  config := clusterConfigToPB r.config
  data := r.data

/-- `installSnapshotResponseFromPB`. -/
def installSnapshotResponseFromPB (pb : RaftPB.InstallSnapshotResponse) : InstallSnapshotResponse where
  term := pb.term

/-- `installSnapshotResponseToPB`. -/
def installSnapshotResponseToPB (r : InstallSnapshotResponse) : RaftPB.InstallSnapshotResponse where
  term := r.term

/-- What the callee receives of a request. -/
def throughWire : Request → Request
  | .vote req => .vote (requestVoteRequestFromPB (requestVoteRequestToPB req))
  | .append req => .append (appendEntriesRequestFromPB (appendEntriesRequestToPB req))
  | .install req => .install (installSnapshotRequestFromPB (installSnapshotRequestToPB req))

/-- What the caller receives of a response. -/
def replyThroughWire : Reply → Reply
  | .vote resp => .vote (requestVoteResponseFromPB (requestVoteResponseToPB resp))
  | .append resp => .append (appendEntriesResponseFromPB (appendEntriesResponseToPB resp))
  | .install resp => .install (installSnapshotResponseFromPB (installSnapshotResponseToPB resp))

/-! ## Round trips -/

/-- An entry arrives unchanged exactly if it is a command. -/
theorem logEntry_roundTrip_iff (e : LogEntry) : logEntryFromPB (logEntryToPB e) = e ↔ e.type = entryCommand := by
  obtain ⟨term, type, command⟩ := e
  simp [logEntryFromPB, logEntryToPB, entryCommand, eq_comm]

/-- Entries arrive unchanged exactly if they are all commands. -/
theorem entries_roundTrip_iff (entries : List LogEntry) :
    (entries.map logEntryToPB).map logEntryFromPB = entries ↔ ∀ e ∈ entries, e.type = entryCommand := by
  induction entries with
  | nil => simp
  | cons e rest ih => simp only [List.map_cons, List.cons.injEq, List.forall_mem_cons, logEntry_roundTrip_iff, ih]

/-- Entries arrive unchanged exactly if they are all commands, and with them the request. -/
theorem appendEntriesRequest_roundTrip_iff (req : AppendEntriesRequest) :
    appendEntriesRequestFromPB (appendEntriesRequestToPB req) = req ↔ ∀ e ∈ req.entries, e.type = entryCommand := by
  rw [← entries_roundTrip_iff]
  constructor
  · intro h
    exact congrArg AppendEntriesRequest.entries h
  · intro h
    obtain ⟨term, leaderID, prevLogIndex, prevLogTerm, entries, leaderCommit⟩ := req
    simp only [appendEntriesRequestFromPB, appendEntriesRequestToPB, h]

/-- **What the wire carries.** An AppendEntries request arrives field for field as it was sent exactly if all
of its entries are commands; an InstallSnapshot request always does. -/
theorem requests_arrive_unchanged_iff (req : AppendEntriesRequest) (snap : InstallSnapshotRequest) :
    (appendEntriesRequestFromPB (appendEntriesRequestToPB req) = req ↔
      ∀ e ∈ req.entries, e.type = entryCommand) ∧
    installSnapshotRequestFromPB (installSnapshotRequestToPB snap) = snap :=
  ⟨appendEntriesRequest_roundTrip_iff req, rfl⟩

/-- A request with an entry of a type that is not in use. -/
def typedRequest : AppendEntriesRequest where
  term := 1
  leaderID := "a"
  prevLogIndex := 0
  prevLogTerm := 0
  entries := [{ term := 1, type := 1, command := [7] }]
  leaderCommit := 0

/-- An entry of another type arrives as a command. -/
theorem entry_type_lost_on_wire :
    (appendEntriesRequestFromPB (appendEntriesRequestToPB typedRequest)).entries =
        [{ term := 1, type := entryCommand, command := [7] }] ∧
      appendEntriesRequestFromPB (appendEntriesRequestToPB typedRequest) ≠ typedRequest := by
  decide

/-- Responses arrive unchanged. -/
theorem replyThroughWire_eq (reply : Reply) : replyThroughWire reply = reply := by
  cases reply <;> rfl

/-! ## What a cluster sends -/

/-- Everywhere in the cluster entries are commands. -/
structure CommandsOnly (c : Cluster) : Prop where
  nodes : ∀ id, ∀ e ∈ (c.servers id).node.log, e.type = entryCommand
  disks : ∀ id, ∀ e ∈ (c.servers id).disk.log, e.type = entryCommand
  calls : ∀ call ∈ c.calls, ∀ req, call.request = .append req → ∀ e ∈ req.entries, e.type = entryCommand

/-- Every step keeps all entries commands. -/
theorem CommandsOnly.step {c c' : Cluster} (h : CommandsOnly c) {members : List String} {act : Action}
    (hstep : c.step members act = some c') : CommandsOnly c' := by
  obtain ⟨id, input, served, after, effects, hsource, hmove, rfl⟩ := Cluster.step_cases hstep
  have hsent : ∀ req, input = .receive (.append req) → ∀ e ∈ req.entries, e.type = entryCommand := by
    intro req hinput
    cases hsource with
    | act hid hlocal =>
      subst hinput
      cases hlocal
    | @deliver handle call _ hcall =>
      exact h.calls call (List.mem_of_getElem? hcall) req (Input.receive.inj hinput)
    | @answer handle call reply => cases reply <;> cases hinput
  have hafter := hmove.logMove.forall_entries hsent (fun _ => rfl) (h.nodes id) (h.disks id)
  refine ⟨fun other => ?_, fun other => ?_, fun call hcall req hreq e he => ?_⟩
  · by_cases heq : other = id
    · subst heq
      rw [Cluster.record_servers_self]
      exact hafter.1
    · rw [Cluster.record_servers_of_ne _ _ _ _ _ heq]
      exact h.nodes other
  · by_cases heq : other = id
    · subst heq
      rw [Cluster.record_servers_self]
      exact hafter.2
    · rw [Cluster.record_servers_of_ne _ _ _ _ _ heq]
      exact h.disks other
  · rcases List.mem_append.mp hcall with hold | hnew
    · exact h.calls call hold req hreq e he
    · obtain ⟨⟨peer, request⟩, hstarted, rfl⟩ := List.mem_map.mp hnew
      obtain rfl : request = .append req := hreq
      cases hmove.sends hstarted with
      | append hbuilt => exact h.nodes id e (Node.mem_of_appendEntriesRequest hbuilt he)

/-- In every run of a cluster all entries are commands, whatever becomes of its storage calls. -/
theorem commandsOnly_of_reachable {m : Membership} {c : Cluster} (run : ClusterReachable m (fun _ _ => True) c) :
    CommandsOnly c := by
  refine run.invariant ?_ ?_
  · rintro c rfl
    refine ⟨fun id e he => ?_, fun id e he => ?_, fun call hcall => absurd hcall List.not_mem_nil⟩
    · exact absurd (mem_newNode_log he) List.not_mem_nil
    · exact absurd he List.not_mem_nil
  · rintro c c' _ h ⟨act, _, hstep⟩
    exact h.step hstep

/-- In every run of a cluster each request arrives as it was sent. -/
theorem calls_arrive_unchanged {m : Membership} {c : Cluster} (run : ClusterReachable m (fun _ _ => True) c)
    {call : Call} (hcall : call ∈ c.calls) : throughWire call.request = call.request := by
  have hcommands := (commandsOnly_of_reachable run).calls call hcall
  cases hrequest : call.request with
  | vote | install => rfl
  | append req => exact congrArg Request.append ((appendEntriesRequest_roundTrip_iff req).mpr (hcommands req hrequest))

end ConsensusLab.Transport
