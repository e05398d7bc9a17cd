import ConsensusLab.Foundation.LogOrder
import ConsensusLab.Foundation.Quorum
import ConsensusLab.Raft.Placement
import Mathlib.Data.List.GetD
import Mathlib.Data.List.Nodup

/-!
# Calls, responses and counted votes

What ties the goroutines of a node to the calls on the network: a waiting goroutine
waits for a call of its own node, and a candidate has counted at most one granted
response of each peer. None of this depends on what the handlers decide, so it holds
in every run, whatever becomes of the storage calls.
-/

namespace ConsensusLab.Raft

open Foundation

/-- The strict majorities of the members. -/
def Membership.quorums (m : Membership) : QuorumSystem String :=
  majorities m.ids.toFinset

/-- A peer has granted a vote in answer to this request of this candidate. -/
def GrantedBy (calls : List Call) (replies : List (ℕ × Reply)) (candidate : String)
    (req : RequestVoteRequest) (voter : String) : Prop :=
  ∃ handle resp, calls[handle]? = some { caller := candidate, callee := voter, request := .vote req } ∧
    (handle, Reply.vote resp) ∈ replies ∧ resp.voteGranted = true

/-- The votes a candidate has counted come from distinct peers, none of which it still waits for. -/
structure PollWired (m : Membership) (calls : List Call) (replies : List (ℕ × Reply)) (id : String)
    (poll : Poll) : Prop where
  candidate : poll.request.candidateID = id
  majority : poll.majority = m.ids.length / 2 + 1
  distinct : poll.awaiting.Nodup
  counted : ∃ (voters : List String) (callee : ℕ → String), voters.Nodup ∧
    poll.votes = voters.length + 1 ∧
    (∀ v ∈ voters, v ∈ m.ids ∧ v ≠ id ∧ GrantedBy calls replies id poll.request v) ∧
    (∀ handle ∈ poll.awaiting, callee handle ∉ voters ∧ callee handle ∈ m.ids ∧ callee handle ≠ id ∧
      calls[handle]? = some { caller := id, callee := callee handle, request := .vote poll.request }) ∧
    ∀ handle ∈ poll.awaiting, ∀ handle' ∈ poll.awaiting, callee handle = callee handle' → handle = handle'

/-- A send goroutine waits for a call of its own. -/
structure SendWired (calls : List Call) (id : String) (send : Send) : Prop where
  append : ∀ req, send.phase = .waitingAppend req →
    calls[send.handle]? = some { caller := id, callee := send.peer, request := .append req }
  install : ∀ req, send.phase = .waitingInstall req →
    calls[send.handle]? = some { caller := id, callee := send.peer, request := .install req }

/-- The main loop works on behalf of its own node and visits peers only. -/
def MainWired (m : Membership) (calls : List Call) (replies : List (ℕ × Reply)) (id : String) :
    MainLoop → Prop
  | .opening req => req.candidateID = id
  | .polling poll => PollWired m calls replies id poll
  | .leading todo => ∀ peer ∈ todo, peer ∈ normalizePeers id m.ids
  | .appending peer todo => ∀ p ∈ peer :: todo, p ∈ normalizePeers id m.ids
  | .idle | .following | .starting | .stopped => True

/-- The goroutines of one server and the network. -/
structure ServerWired (m : Membership) (calls : List Call) (replies : List (ℕ × Reply)) (id : String)
    (sv : Server) : Prop where
  placed : Placed m id sv.node sv.disk
  main : MainWired m calls replies id sv.main
  sends : ∀ send ∈ sv.sends, SendWired calls id send

/-- A call between two members that says who sends it. -/
structure CallWired (m : Membership) (call : Call) : Prop where
  caller : call.caller ∈ m.ids
  callee : call.callee ∈ m.ids
  distinct : call.callee ≠ call.caller
  vote : ∀ req, call.request = .vote req → req.candidateID = call.caller
  install : ∀ req, call.request = .install req → m.Suits req.config

/-- The goroutines of all servers and the network. -/
structure Wired (m : Membership) (c : Cluster) : Prop where
  servers : ∀ id ∈ m.ids, ServerWired m c.calls c.replies id (c.servers id)
  calls : ∀ call ∈ c.calls, CallWired m call
  replies : ∀ handle reply, (handle, reply) ∈ c.replies → handle < c.calls.length

variable {m : Membership} {calls calls' : List Call} {replies replies' : List (ℕ × Reply)} {id : String}
  {sv : Server}

/-- Granted votes stay granted. -/
theorem GrantedBy.mono {req : RequestVoteRequest} {voter : String}
    (h : GrantedBy calls replies id req voter) (hcalls : calls <+: calls')
    (hreplies : replies ⊆ replies') : GrantedBy calls' replies' id req voter := by
  obtain ⟨handle, resp, hcall, hreply, hgranted⟩ := h
  exact ⟨handle, resp, getElem?_of_initial hcalls hcall, hreplies hreply, hgranted⟩

/-- A poll is not disturbed by further calls and responses. -/
theorem PollWired.mono {poll : Poll} (h : PollWired m calls replies id poll) (hcalls : calls <+: calls')
    (hreplies : replies ⊆ replies') : PollWired m calls' replies' id poll where
  candidate := h.candidate
  majority := h.majority
  distinct := h.distinct
  counted := by
    obtain ⟨voters, callee, hnodup, hvotes, hgranted, hawait, hinj⟩ := h.counted
    refine ⟨voters, callee, hnodup, hvotes, fun v hv => ?_, fun handle hh => ?_, hinj⟩
    · obtain ⟨hmem, hne, hgr⟩ := hgranted v hv
      exact ⟨hmem, hne, hgr.mono hcalls hreplies⟩
    · obtain ⟨hnew, hmem, hne, hcall⟩ := hawait handle hh
      exact ⟨hnew, hmem, hne, getElem?_of_initial hcalls hcall⟩

/-- A send goroutine is not disturbed by further calls. -/
theorem SendWired.mono {send : Send} (h : SendWired calls id send) (hcalls : calls <+: calls') :
    SendWired calls' id send where
  append req hreq := getElem?_of_initial hcalls (h.append req hreq)
  install req hreq := getElem?_of_initial hcalls (h.install req hreq)

/-- A server is not disturbed by further calls and responses. -/
theorem ServerWired.mono (h : ServerWired m calls replies id sv) (hcalls : calls <+: calls')
    (hreplies : replies ⊆ replies') : ServerWired m calls' replies' id sv where
  placed := h.placed
  main := by
    have hmain := h.main
    cases hm : sv.main <;> rw [hm] at hmain
    case polling poll => exact PollWired.mono hmain hcalls hreplies
    all_goals exact hmain
  sends send hsend := (h.sends send hsend).mono hcalls

/-- A freshly opened poll has counted nothing but the candidate's own vote. -/
theorem PollWired.fresh {req : RequestVoteRequest} {peers : List String} (hreq : req.candidateID = id)
    (hpeers : peers = normalizePeers id m.ids) :
    PollWired m (calls ++ (peers.map fun peer => (peer, Request.vote req)).map
        fun (peer, req) => { caller := id, callee := peer, request := req }) replies id
      { request := req, votes := 1, majority := m.ids.length / 2 + 1
        awaiting := List.range' calls.length peers.length } where
  candidate := hreq
  majority := rfl
  distinct := List.nodup_range' ..
  counted := by
    have hnodup : peers.Nodup := hpeers ▸ m.peers_nodup id
    refine ⟨[], fun handle => peers.getD (handle - calls.length) "", List.nodup_nil, rfl, fun v hv => ?_,
      fun handle hh => ?_, fun handle hh handle' hh' heq => ?_⟩
    · cases hv
    · rw [List.mem_range'_1] at hh
      have hlt : handle - calls.length < peers.length := by omega
      have hmem : peers[handle - calls.length] ∈ peers := List.getElem_mem hlt
      beta_reduce
      rw [List.getD_eq_getElem _ _ hlt]
      refine ⟨List.not_mem_nil, ?_⟩
      have hpeer : peers[handle - calls.length] ∈ m.ids ∧ peers[handle - calls.length] ≠ id :=
        Membership.mem_peers.mp (by rw [← hpeers]; exact hmem)
      refine ⟨hpeer.1, hpeer.2, ?_⟩
      rw [List.getElem?_append_right hh.1, List.map_map, List.getElem?_map, List.getElem?_eq_getElem hlt]
      rfl
    · rw [List.mem_range'_1] at hh hh'
      have hlt : handle - calls.length < peers.length := by omega
      have hlt' : handle' - calls.length < peers.length := by omega
      beta_reduce at heq
      rw [List.getD_eq_getElem _ _ hlt, List.getD_eq_getElem _ _ hlt'] at heq
      have := (List.Nodup.getElem_inj_iff hnodup).mp heq
      omega

/-- Reading a response takes its call off the list and counts its callee if the vote was granted. -/
theorem PollWired.read {poll : Poll} (h : PollWired m calls replies id poll) {handle : ℕ}
    {resp : RequestVoteResponse} (hawaited : handle ∈ poll.awaiting)
    (hreply : (handle, Reply.vote resp) ∈ replies) :
    PollWired m calls replies id { poll with
      votes := if resp.voteGranted then poll.votes + 1 else poll.votes
      awaiting := poll.awaiting.erase handle } where
  candidate := h.candidate
  majority := h.majority
  distinct := h.distinct.erase handle
  counted := by
    obtain ⟨voters, callee, hnodup, hvotes, hgranted, hawait, hinj⟩ := h.counted
    obtain ⟨hnew, hmem, hne, hcall⟩ := hawait handle hawaited
    have hrest : ∀ other ∈ poll.awaiting.erase handle, other ∈ poll.awaiting ∧ other ≠ handle :=
      fun other ho => ⟨List.mem_of_mem_erase ho, fun heq => h.distinct.not_mem_erase (heq ▸ ho)⟩
    have hinj' : ∀ o ∈ poll.awaiting.erase handle, ∀ o' ∈ poll.awaiting.erase handle,
        callee o = callee o' → o = o' :=
      fun o ho o' ho' => hinj o (hrest o ho).1 o' (hrest o' ho').1
    cases hg : resp.voteGranted with
    | false =>
      exact ⟨voters, callee, hnodup, hvotes, hgranted, fun o ho => hawait o (hrest o ho).1, hinj'⟩
    | true =>
      refine ⟨callee handle :: voters, callee, List.nodup_cons.mpr ⟨hnew, hnodup⟩, ?_, ?_, ?_, hinj'⟩
      · rw [List.length_cons, ← hvotes]
        rfl
      · intro v hv
        rcases List.mem_cons.mp hv with rfl | hv
        · exact ⟨hmem, hne, handle, resp, hcall, hreply, hg⟩
        · exact hgranted v hv
      · intro o ho
        obtain ⟨hnew', hmem', hne', hcall'⟩ := hawait o (hrest o ho).1
        refine ⟨fun hin => ?_, hmem', hne', hcall'⟩
        rcases List.mem_cons.mp hin with heq | hin
        · exact (hrest o ho).2 (hinj o (hrest o ho).1 handle hawaited heq)
        · exact hnew' hin

/-- A candidate whose count reaches the majority has a quorum of granted votes, its own included. -/
theorem PollWired.quorum (hid : id ∈ m.ids) {poll : Poll} (h : PollWired m calls replies id poll)
    {handle : ℕ} {resp : RequestVoteResponse} (hawaited : handle ∈ poll.awaiting)
    (hreply : (handle, Reply.vote resp) ∈ replies)
    (hmajority : poll.majority ≤ if resp.voteGranted then poll.votes + 1 else poll.votes) :
    ∃ Q, m.quorums.IsQuorum Q ∧ ∀ v ∈ Q, v = id ∨ GrantedBy calls replies id poll.request v := by
  obtain ⟨voters, _, hnodup, hvotes, hgranted, _⟩ := (h.read hawaited hreply).counted
  refine ⟨(id :: voters).toFinset, strictMajority_of_list m.nodup ?_ ?_ ?_, fun v hv => ?_⟩
  · exact List.nodup_cons.mpr ⟨fun hin => (hgranted id hin).2.1 rfl, hnodup⟩
  · intro v hv
    rcases List.mem_cons.mp hv with rfl | hv
    · exact hid
    · exact (hgranted v hv).1
  · rw [List.length_cons, ← hvotes, ← h.majority]
    exact hmajority
  · rcases List.mem_cons.mp (List.mem_toFinset.mp hv) with rfl | hv
    · exact Or.inl rfl
    · exact Or.inr (hgranted v hv).2.2

/-- The calls that a step of a server starts. -/
def Effects.started (effects : Effects) (id : String) : List Call :=
  effects.calls.map fun (peer, req) => { caller := id, callee := peer, request := req }

/-- A server and its new calls after a step. -/
structure WiredAfter (m : Membership) (calls : List Call) (replies : List (ℕ × Reply)) (id : String)
    (result : Server × Effects) : Prop where
  server : ServerWired m (calls ++ result.2.started id) replies id result.1
  calls : ∀ call ∈ result.2.started id, CallWired m call

/-- A step that starts no calls. -/
theorem WiredAfter.quiet {result : Server × Effects} (hquiet : result.2.calls = [])
    (h : ServerWired m calls replies id result.1) : WiredAfter m calls replies id result where
  server := by simpa [Effects.started, hquiet] using h
  calls call hcall := by simp [Effects.started, hquiet] at hcall

/-- Changing the phase of a goroutine that then waits for nothing. -/
theorem sendWired_setPhase (h : ∀ send ∈ sv.sends, SendWired calls id send) (handle : ℕ)
    {phase : SendPhase} (happend : ∀ req, phase ≠ .waitingAppend req)
    (hinstall : ∀ req, phase ≠ .waitingInstall req) :
    ∀ send ∈ NodeProcess.setPhase sv.sends handle phase, SendWired calls id send := by
  intro send hsend
  obtain ⟨old, hold, rfl⟩ := List.mem_map.mp hsend
  split
  · exact ⟨fun req hreq => absurd hreq (happend req), fun req hreq => absurd hreq (hinstall req)⟩
  · exact h old hold

/-- A restarted server is wired. -/
theorem ServerWired.reboot (hid : id ∈ m.ids) (h : ServerWired m calls replies id sv)
    {disk : PersistentState} (hdisk : DiskPlaced m disk) :
    ServerWired m calls replies id (sv.reboot disk) where
  placed := by
    have hpeers : normalizePeers id sv.node.peers = normalizePeers id m.ids := by
      rw [h.placed.peers]
      simp [normalizePeers]
    have hnew := placed_newNode hid hdisk hpeers
    rw [← h.placed.self] at hnew ⊢
    exact hnew.keep rfl rfl rfl rfl
  main := trivial
  sends := nofun

/-- Performing a section that keeps the placement, and leaves what follows to be checked. -/
theorem ServerWired.perform {A : Type} (hid : id ∈ m.ids) (h : ServerWired m calls replies id sv)
    {fates : List Fate} {p : Section A} {next : A → PersistentState → Server × Effects}
    {post : A → PersistentState → Prop} (hp : p.Ensures True (DiskPlaced m) post sv.disk)
    (hnext : ∀ a disk, post a disk → WiredAfter m calls replies id (next a disk)) :
    WiredAfter m calls replies id (sv.perform fates p next) :=
  Server.perform_rule hp (Or.inl trivial) hnext fun _ _ hdisk => .quiet rfl (h.reboot hid hdisk)

/-- The parts of the environment's contribution that the wiring depends on. -/
structure InputWired (m : Membership) (replies : List (ℕ × Reply)) (input : Input) : Prop where
  vote : ∀ handle resp, input = .voteAnswered handle resp → (handle, Reply.vote resp) ∈ replies
  install : ∀ req, input = .receive (.install req) → m.Suits req.config

/-- Handlers keep a server wired. -/
theorem ServerWired.receive (hid : id ∈ m.ids) (h : ServerWired m calls replies id sv) {fates : List Fate}
    {req : Request} (hin : InputWired m replies (.receive req)) :
    WiredAfter m calls replies id (sv.carryOut fates (sv.planReceive req)) := by
  have hhandled : ∀ {R : Type} (wrap : R → Reply) (r : Node × Except RaftError R) disk,
      Placed m id r.1 disk → WiredAfter m calls replies id (Server.onDisk disk (sv.handled wrap r)) := by
    rintro R wrap ⟨node, e | resp⟩ disk hplaced <;> exact .quiet rfl ⟨hplaced, h.main, h.sends⟩
  cases req with
  | vote req => exact h.perform hid (h.placed.handleRequestVote req) (hhandled _)
  | append req => exact h.perform hid (h.placed.handleAppendEntries req) (hhandled _)
  | install req => exact h.perform hid (h.placed.handleInstallSnapshot (hin.install req rfl)) (hhandled _)

/-- A leader's visit to a peer keeps a server wired. -/
theorem ServerWired.visit (hid : id ∈ m.ids) (h : ServerWired m calls replies id sv) {fates : List Fate}
    {peer : String} {todo : List String} (hmain : sv.main = .leading todo) (hpeer : peer ∈ todo) :
    WiredAfter m calls replies id (sv.carryOut fates (sv.planVisit calls.length peer todo)) := by
  have htodo : ∀ p ∈ todo, p ∈ normalizePeers id m.ids := by
    have := h.main
    rwa [hmain] at this
  have hrest : ∀ p ∈ todo.erase peer, p ∈ normalizePeers id m.ids :=
    fun p hp => htodo p (List.mem_of_mem_erase hp)
  refine h.perform hid (h.placed.installSnapshotRequestForPeer peer) ?_
  rintro ⟨node, _ | _ | req⟩ disk ⟨hplaced, hsuits⟩
  · exact .quiet rfl ⟨hplaced, trivial, h.sends⟩
  · refine .quiet rfl ⟨hplaced, fun p hp => ?_, h.sends⟩
    rcases List.mem_cons.mp hp with rfl | hp
    · exact htodo p hpeer
    · exact hrest p hp
  · have hmem := Membership.mem_peers.mp (htodo peer hpeer)
    refine ⟨⟨hplaced, hrest, fun send hsend => ?_⟩, fun call hcall => ?_⟩
    · rcases List.mem_cons.mp hsend with rfl | hsend
      · refine ⟨nofun, fun r hr => ?_⟩
        cases hr
        exact List.getElem?_concat_length
      · exact (h.sends send hsend).mono (List.prefix_append ..)
    · rw [List.mem_singleton.mp hcall]
      exact ⟨hid, hmem.1, hmem.2, nofun, fun r hr => by cases hr; exact hsuits req rfl⟩

/-- A leader's turn for entries keeps a server wired. -/
theorem ServerWired.appendTurn (hid : id ∈ m.ids) (h : ServerWired m calls replies id sv)
    {fates : List Fate} {peer : String} {todo : List String} (hmain : sv.main = .appending peer todo) :
    WiredAfter m calls replies id (sv.carryOut fates (sv.planAppendTurn calls.length peer todo)) := by
  have hturn : ∀ p ∈ peer :: todo, p ∈ normalizePeers id m.ids := by
    have := h.main
    rwa [hmain] at this
  have hrest : ∀ p ∈ todo, p ∈ normalizePeers id m.ids := fun p hp => hturn p (List.mem_cons_of_mem _ hp)
  refine h.perform hid (h.placed.appendEntriesRequestForPeer peer) ?_
  rintro ⟨node, _ | _ | req⟩ disk hplaced
  · exact .quiet rfl ⟨hplaced, trivial, h.sends⟩
  · exact .quiet rfl ⟨hplaced, hrest, h.sends⟩
  · have hmem := Membership.mem_peers.mp (hturn peer List.mem_cons_self)
    refine ⟨⟨hplaced, hrest, fun send hsend => ?_⟩, fun call hcall => ?_⟩
    · rcases List.mem_cons.mp hsend with rfl | hsend
      · refine ⟨fun r hr => ?_, nofun⟩
        cases hr
        exact List.getElem?_concat_length
      · exact (h.sends send hsend).mono (List.prefix_append ..)
    · rw [List.mem_singleton.mp hcall]
      exact ⟨hid, hmem.1, hmem.2, nofun, nofun⟩

/-- Every step of a server keeps it wired. -/
theorem ServerWired.move (hid : id ∈ m.ids) (h : ServerWired m calls replies id sv) {fates : List Fate}
    {input : Input} {result : Server × Effects} (hin : InputWired m replies input)
    (hmove : sv.Move calls.length fates input result) : WiredAfter m calls replies id result := by
  have hkept : ∀ {node : Node}, node.id = sv.node.id → node.peers = sv.node.peers →
      node.config = sv.node.config → node.snapshot = sv.node.snapshot → Placed m id node sv.disk :=
    fun h₁ h₂ h₃ h₄ => h.placed.keep h₁ h₂ h₃ h₄
  cases hmove with
  | restart => exact .quiet rfl (h.reboot hid h.placed.disk)
  | dispatch hmain =>
    refine .quiet rfl ?_
    simp only [NodeProcess.dispatch]
    split
    · exact ⟨h.placed, trivial, h.sends⟩
    · split
      · exact ⟨h.placed, trivial, h.sends⟩
      · exact ⟨h.placed, trivial, h.sends⟩
      · exact ⟨h.placed, nofun, h.sends⟩
  | electionReset => exact .quiet rfl ⟨hkept rfl rfl rfl rfl, h.main, h.sends⟩
  | electionTimeout => exact .quiet rfl ⟨hkept rfl rfl rfl rfl, trivial, h.sends⟩
  | startElection =>
    refine h.perform hid h.placed.startElection ?_
    rintro ⟨node, _ | req⟩ disk ⟨hplaced, hreq⟩
    · exact .quiet rfl ⟨hplaced, trivial, h.sends⟩
    · exact .quiet rfl ⟨hplaced, hreq req rfl, h.sends⟩
  | @openPoll req hmain =>
    have hreq : req.candidateID = id := by
      have := h.main
      rwa [hmain] at this
    refine ⟨⟨h.placed, ?_, fun send hsend => (h.sends send hsend).mono (List.prefix_append ..)⟩,
      fun call hcall => ?_⟩
    · have hfresh := @PollWired.fresh m calls replies id req _ hreq h.placed.peers
      rw [← h.placed.config] at hfresh
      exact hfresh
    · simp only [Effects.started, Server.onDisk, NodeProcess.stepOpenPoll, List.map_map, List.mem_map] at hcall
      obtain ⟨peer, hpeer, rfl⟩ := hcall
      rw [h.placed.peers] at hpeer
      have hmem := Membership.mem_peers.mp hpeer
      exact ⟨hid, hmem.1, hmem.2, fun r hr => by cases hr; exact hreq, nofun⟩
  | @voteAnswered poll handle resp hmain hawaited =>
    have hpoll : PollWired m calls replies id poll := by
      have := h.main
      rwa [hmain] at this
    have hread := hpoll.read hawaited (hin.vote handle resp rfl)
    refine h.perform hid (h.placed.handleVoteResponse poll.votes poll.majority resp) ?_
    rintro ⟨node, _ | count⟩ disk ⟨hplaced, hcount⟩
    · exact .quiet rfl ⟨hplaced, trivial, h.sends⟩
    · refine .quiet rfl ⟨hplaced, ?_, h.sends⟩
      rw [← hcount count rfl] at hread
      exact hread
  | pollTimeout => exact .quiet rfl ⟨h.placed, trivial, h.sends⟩
  | startRoundNotified | startRound =>
    exact .quiet rfl ⟨hkept rfl rfl rfl rfl, fun p hp => h.placed.peers ▸ hp, h.sends⟩
  | visit hmain hpeer => exact h.visit hid hmain hpeer
  | appendTurn hmain => exact h.appendTurn hid hmain
  | appendAnswered =>
    refine h.perform hid (h.placed.handleAppendEntriesResponse _ _ _) ?_
    exact fun r disk hplaced => .quiet rfl ⟨hplaced, h.main, sendWired_setPhase h.sends _ nofun nofun⟩
  | installAnswered =>
    refine h.perform hid (h.placed.handleInstallSnapshotResponse _ _ _) ?_
    exact fun r disk hplaced => .quiet rfl ⟨hplaced, h.main, sendWired_setPhase h.sends _ nofun nofun⟩
  | callFailed => exact .quiet rfl ⟨h.placed, h.main, sendWired_setPhase h.sends _ nofun nofun⟩
  | @signal send signals =>
    refine .quiet rfl ⟨?_, h.main, sendWired_setPhase h.sends _ nofun nofun⟩
    simp only [NodeProcess.stepSignal]
    split <;> split <;> exact hkept rfl rfl rfl rfl
  | finish =>
    exact .quiet rfl ⟨hkept rfl rfl rfl rfl, h.main, fun s hs => h.sends s (List.mem_of_mem_filter hs)⟩
  | receive req => exact h.receive hid hin
  | startCommand cmd =>
    refine h.perform hid (h.placed.startCommand cmd) ?_
    exact fun r disk hplaced => .quiet rfl ⟨hplaced, h.main, h.sends⟩
  | takeSnapshot index data =>
    refine h.perform hid (h.placed.takeSnapshot index data) ?_
    rintro ⟨node, e | ⟨⟨⟩⟩⟩ disk hplaced <;> exact .quiet rfl ⟨hplaced, h.main, h.sends⟩
  | notify | wakeApply | drain | sendSnapshot | recordSnapshot | sendEntry =>
    exact .quiet rfl ⟨hkept rfl rfl rfl rfl, h.main, h.sends⟩
  | pickEntry =>
    refine h.perform hid h.placed.nextToApply ?_
    exact fun r disk hplaced => .quiet rfl ⟨hplaced, h.main, h.sends⟩

/-- Whoever an action moves is a member, and what the network contributes is on record there. -/
theorem Wired.source {c : Cluster} (h : Wired m c) {a : Action} {input : Input} {served : Option ℕ}
    (hsource : Cluster.Source m.ids c a id input served) :
    id ∈ m.ids ∧ InputWired m c.replies input := by
  cases hsource with
  | act hid hlocal =>
    refine ⟨hid, ⟨?_, ?_⟩⟩
    · rintro handle resp rfl
      cases hlocal
    · rintro req rfl
      cases hlocal
  | deliver hcall =>
    have hwired := h.calls _ (List.mem_of_getElem? hcall)
    refine ⟨hwired.callee, ⟨nofun, fun req hreq => hwired.install req ?_⟩⟩
    exact Input.receive.inj hreq
  | @answer handle call reply fates hcall hreply =>
    have hwired := h.calls _ (List.mem_of_getElem? hcall)
    refine ⟨hwired.caller, ⟨fun handle resp hvote => ?_, fun req hreq => ?_⟩⟩
    · cases reply <;> cases hvote
      exact hreply
    · cases reply <;> cases hreq

/-- Every step of a cluster keeps it wired. -/
theorem Wired.step {c c' : Cluster} (h : Wired m c) {a : Action} (hstep : c.step m.ids a = some c') :
    Wired m c' := by
  obtain ⟨id, input, served, after, effects, hsource, hmove, rfl⟩ := Cluster.step_cases hstep
  obtain ⟨hid, hin⟩ := h.source hsource
  have hafter := (h.servers id hid).move hid hin hmove
  have hreplies : c.replies ⊆ (c.record id input served after effects).replies :=
    List.subset_append_left ..
  refine ⟨fun other hother => ?_, fun call hcall => ?_, fun handle reply hreply => ?_⟩
  · by_cases heq : other = id
    · subst other
      rw [Cluster.record_servers_self]
      exact hafter.server.mono List.prefix_rfl hreplies
    · rw [Cluster.record_servers_of_ne _ _ _ _ _ heq]
      exact (h.servers other hother).mono (List.prefix_append ..) hreplies
  · rcases List.mem_append.mp hcall with hold | hnew
    · exact h.calls call hold
    · exact hafter.calls call hnew
  · have hlt : handle < c.calls.length := by
      rcases Cluster.mem_record_replies hreply with hold | ⟨rfl, _⟩
      · exact h.replies handle reply hold
      · obtain ⟨call, hcall, _⟩ := hsource.serves
        exact (List.getElem?_eq_some_iff.mp hcall).1
    have hlen : c.calls.length ≤ (c.record id input served after effects).calls.length :=
      (List.prefix_append ..).length_le
    omega

/-- A cluster is wired at first. -/
theorem wired_first (m : Membership) : Wired m (Cluster.first m.ids) where
  servers id hid := by
    have hdisk : DiskPlaced m .empty := ⟨Or.inl rfl, nofun⟩
    exact ⟨(placed_newNode hid hdisk rfl).keep rfl rfl rfl rfl, trivial, nofun⟩
  calls := nofun
  replies := nofun

/-- A call that has been answered was there when it was. -/
theorem Wired.answered {c : Cluster} (h : Wired m c) {handle : ℕ} {reply : Reply} {call : Call}
    (hreply : (handle, reply) ∈ c.replies) (hcalls : c.calls <+: calls) (hcall : calls[handle]? = some call) :
    c.calls[handle]? = some call := by
  have hlt := h.replies handle reply hreply
  rw [← hcall, List.getElem?_eq_getElem hlt, getElem?_of_initial hcalls (List.getElem?_eq_getElem hlt)]

/-- A cluster is wired in every run. -/
theorem wired_of_reachable {allowed : Cluster → Action → Prop} {c : Cluster}
    (run : ClusterReachable m allowed c) : Wired m c :=
  run.invariant (fun _ hfirst => hfirst ▸ wired_first m) fun _ _ _ h ⟨_, _, hstep⟩ => h.step hstep

end ConsensusLab.Raft
