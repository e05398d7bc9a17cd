import ConsensusLab.Raft.ElectionMirror

/-!
# Election safety

A server's main loop campaigns only in the term its node has stored a vote for itself
in, and it counts only ballots of that term. So a cluster in which storage calls may
fail and processes may crash at any storage call follows the election protocol, and no
term has two leaders.
-/

namespace ConsensusLab.Raft

open Foundation

/-- The main loop mirrors the election protocol: leaders do not campaign, degraded candidates go no
further, and a candidate campaigns in its own term. -/
structure MainMirror (e : ElectionState String Int) (id : String) (n : Node) (main : MainLoop) : Prop where
  office : n.role = .leader → main.canvassing = false
  sober : n.role = .candidate → n.degraded = true → main = .idle ∨ main = .stopped
  campaign : n.role = .candidate → ∀ req, main.campaign = some req →
    req.term = n.currentTerm ∧ e.standing id = .candidate

/-- A server mirrors the election protocol. -/
structure ServerMirror (e : ElectionState String Int) (id : String) (sv : Server) : Prop where
  hard : HardMirror e id sv.node sv.disk
  main : MainMirror e id sv.node sv.main

variable {m : Membership} {e e' : ElectionState String Int} {id : String} {sv : Server} {n n' : Node}
  {main : MainLoop}

/-- Becoming a follower, or keeping one's role, needs no change of the main loop. -/
theorem MainMirror.subside (h : MainMirror e id n main) (hsub : Subsides id n e n' e') :
    MainMirror e' id n' main := by
  rcases hsub with hf | ⟨hrole, hterm, hdeg, hst⟩
  · exact ⟨by rw [hf]; nofun, by rw [hf]; nofun, by rw [hf]; nofun⟩
  · refine ⟨fun hl => h.office (hrole ▸ hl), fun hc hd => ?_, fun hc req hreq => ?_⟩
    · have hc' : n.role = .candidate := hrole ▸ hc
      exact h.sober hc' (hdeg hc' ▸ hd)
    · rw [hterm, hst]
      exact h.campaign (hrole ▸ hc) req hreq

/-- At the top of `run`, and once it has returned, nothing is asked of the node. -/
theorem MainMirror.rest (hmain : main = .idle ∨ main = .stopped) : MainMirror e id n main where
  office _ := by rcases hmain with rfl | rfl <;> rfl
  sober _ _ := hmain
  campaign _ req hreq := by rcases hmain with rfl | rfl <;> cases hreq

/-- A server depends only on what the election state says about it. -/
theorem ServerMirror.of_view (h : ServerMirror e id sv) (hview : electionView e' id = electionView e id) :
    ServerMirror e' id sv := by
  simp only [electionView, Prod.mk.injEq] at hview
  obtain ⟨hterm, hst, hballot⟩ := hview
  refine ⟨⟨⟨?_, ?_⟩, h.hard.memory, h.hard.ahead, ?_⟩, ⟨h.main.office, h.main.sober, ?_⟩⟩
  · rw [hterm, h.hard.disk.term]
  · rw [hterm, congrFun hballot, h.hard.disk.ballot]
  · rw [hst]
    exact h.hard.leader
  · rw [hst]
    exact h.main.campaign

/-- A server after a step, and the ballot behind a vote that the step granted. -/
def MirroredAfter (m : Membership) (e : ElectionState String Int) (id : String) (input : Input)
    (result : Server × Effects) : Prop :=
  ∃ e', ElectionPath m id e e' ∧ ServerMirror e' id result.1 ∧
    ∀ req resp, input = .receive (.vote req) → result.2.reply = some (.vote resp) →
      resp.voteGranted = true → e'.ballot req.term id = some req.candidateID

/-- Without an answer no vote is granted. -/
theorem Effects.no_vote {effects : Effects} (h : effects.reply = none) (resp : RequestVoteResponse) :
    effects.reply ≠ some (.vote resp) := by
  rw [h]
  exact (Option.some_ne_none _).symm

/-- A step that grants no vote. -/
theorem MirroredAfter.silent {input : Input} {result : Server × Effects} (hpath : ElectionPath m id e e')
    (h : ServerMirror e' id result.1) (hsilent : ∀ resp, result.2.reply ≠ some (.vote resp)) :
    MirroredAfter m e id input result :=
  ⟨e', hpath, h, fun _ resp _ hreply => absurd hreply (hsilent resp)⟩

/-- A started process mirrors whatever its disk does. -/
theorem DiskMirror.boot {disk : PersistentState} (h : DiskMirror e id disk) (self : String)
    (peers : List String) : ServerMirror e id (Server.boot self peers disk) where
  hard := by
    refine ⟨h, fun _ => ⟨newNode_currentTerm .., newNode_votedFor ..⟩, ?_, fun hl => ?_⟩
    · exact le_of_eq (newNode_currentTerm ..).symm
    · have hrole : (newNode self peers disk).role = .leader := hl
      rw [newNode_role] at hrole
      cases hrole
  main := .rest (Or.inl rfl)

/-- A restarted server mirrors what its disk could recover. -/
theorem Recoverable.reboot {disk : PersistentState} (h : Recoverable m e id disk) (input : Input)
    (effects : Effects) (hsilent : effects.reply = none) :
    MirroredAfter m e id input (sv.reboot disk, effects) := by
  obtain ⟨e', hpath, hdisk⟩ := h
  exact .silent hpath (hdisk.boot _ _) (Effects.no_vote hsilent)

/-- Performing a section. -/
theorem ServerMirror.perform {A : Type} {fates : List Fate} {p : Section A}
    {next : A → PersistentState → Server × Effects} {Q : A → PersistentState → Prop} {input : Input}
    (hp : p.Ensures True (Recoverable m e id) Q sv.disk)
    (hnext : ∀ a disk, Q a disk → MirroredAfter m e id input (next a disk)) :
    MirroredAfter m e id input (sv.perform fates p next) :=
  Server.perform_rule hp (Or.inl trivial) hnext fun _ _ hdisk => hdisk.reboot input _ rfl

/-- Performing a section that wins no election and grants no vote, with the main loop left alone. -/
theorem ServerMirror.subside (h : ServerMirror e id sv) {result : Server × Effects} {input : Input}
    (hm : Mirrored m e id sv.node result.1.node result.1.disk) (hmain : result.1.main = sv.main)
    (hsilent : ∀ resp, result.2.reply ≠ some (.vote resp)) : MirroredAfter m e id input result := by
  obtain ⟨e', hpath, hhard, hsub⟩ := hm
  refine .silent hpath ⟨hhard, ?_⟩ hsilent
  rw [hmain]
  exact h.main.subside hsub

/-- The same with the main loop sent back to the top of `run`. -/
theorem MirroredAfter.of_rest {result : Server × Effects} {input : Input}
    (hm : Mirrored m e id sv.node result.1.node result.1.disk)
    (hmain : result.1.main = .idle ∨ result.1.main = .stopped)
    (hsilent : ∀ resp, result.2.reply ≠ some (.vote resp)) : MirroredAfter m e id input result := by
  obtain ⟨e', hpath, hhard, _⟩ := hm
  exact .silent hpath ⟨hhard, .rest hmain⟩ hsilent

/-- The parts of the environment's contribution that elections depend on: candidates have names, and a
count that reaches the majority stands for a quorum of ballots. -/
structure InputMirror (m : Membership) (e : ElectionState String Int) (id : String) (sv : Server)
    (input : Input) : Prop where
  candidate : ∀ req, input = .receive (.vote req) → req.candidateID ≠ ""
  quorum : ∀ handle resp poll, input = .voteAnswered handle resp → sv.main = .polling poll →
    handle ∈ poll.awaiting → e.standing id = .candidate → e.term id = poll.request.term →
    poll.majority ≤ (if resp.voteGranted then poll.votes + 1 else poll.votes) →
    ∃ Q, m.quorums.IsQuorum Q ∧ ∀ v ∈ Q, e.ballot (e.term id) v = some id

/-- Handlers mirror the election protocol. -/
theorem ServerMirror.receive (hinv : ElectionInvariant m.quorums e) (h : ServerMirror e id sv)
    {fates : List Fate} {req : Request} (hin : InputMirror m e id sv (.receive req)) :
    MirroredAfter m e id (.receive req) (sv.carryOut fates (sv.planReceive req)) := by
  cases req with
  | vote req =>
    refine ServerMirror.perform (h.hard.handleRequestVote hinv (hin.candidate req rfl)) ?_
    rintro ⟨node, err | resp⟩ disk ⟨e', hpath, hhard, hsub, hballot⟩
    · exact ⟨e', hpath, ⟨hhard, h.main.subside hsub⟩, nofun⟩
    · refine ⟨e', hpath, ⟨hhard, h.main.subside hsub⟩, fun r resp' hr hreply hgranted => ?_⟩
      cases hr
      cases hreply
      exact hballot resp rfl hgranted
  | append req =>
    refine ServerMirror.perform (h.hard.handleAppendEntries hinv req) ?_
    rintro ⟨node, err | resp⟩ disk hm <;> exact h.subside hm rfl nofun
  | install req =>
    refine ServerMirror.perform (h.hard.handleInstallSnapshot hinv req) ?_
    rintro ⟨node, err | resp⟩ disk hm <;> exact h.subside hm rfl nofun

/-- Reading a vote mirrors the election protocol: a counted majority is a victory. -/
theorem ServerMirror.voteAnswered (hinv : ElectionInvariant m.quorums e) (h : ServerMirror e id sv)
    {fates : List Fate} {poll : Poll} {handle : ℕ} {resp : RequestVoteResponse}
    (hmain : sv.main = .polling poll) (hawaited : handle ∈ poll.awaiting)
    (hin : InputMirror m e id sv (.voteAnswered handle resp)) :
    MirroredAfter m e id (.voteAnswered handle resp) (sv.carryOut fates (sv.planVoteAnswered poll handle resp)) := by
  have hsober : sv.node.role = .candidate → sv.node.degraded = false := by
    intro hc
    by_contra hd
    rcases h.main.sober hc (Bool.not_eq_false _ ▸ hd) with hrest | hrest <;> simp [hmain] at hrest
  have hcampaign : sv.node.role = .candidate →
      poll.request.term = sv.node.currentTerm ∧ e.standing id = .candidate :=
    fun hc => h.main.campaign hc poll.request (by rw [hmain]; rfl)
  refine ServerMirror.perform (Q := fun r d' =>
    (r.2 = none ∧ Mirrored m e id sv.node r.1 d') ∨ (r.1 = sv.node ∧ d' = sv.disk ∧ ∃ k, r.2 = some k) ∨
    (r.2 = none ∧ ∃ e', ElectionPath m id e e' ∧ HardMirror e' id r.1 d')) ?_ ?_
  · refine Node.handleVoteResponse_rule
      (fun hterm => (h.hard.stepDown hinv hterm).mono (fun _ h => h) fun _ _ hm => Or.inl ⟨rfl, hm⟩)
      (fun _ _ => Or.inl ⟨rfl, h.hard.unchanged⟩) (fun _ hc hmajority => Or.inr (Or.inr ⟨rfl, ?_⟩))
      (fun _ _ => Or.inr (Or.inl ⟨rfl, rfl, _, rfl⟩))
    obtain ⟨hterm, hvote⟩ := h.hard.memory (hsober hc)
    obtain ⟨hreq, hst⟩ := hcampaign hc
    have hself : e.term id = poll.request.term := by rw [h.hard.disk.term, ← hterm, hreq]
    obtain ⟨Q, hQ, hballots⟩ := hin.quorum handle resp poll rfl hmain hawaited hst hself hmajority
    refine ⟨_, .single (.win e id Q hst hQ hballots) fun w hw => ?_, ⟨h.hard.disk.term, h.hard.disk.ballot⟩,
      h.hard.memory, h.hard.ahead, fun _ => ⟨hterm, hvote, Function.update_self ..⟩⟩
    simp only [electionView, Function.update_of_ne hw]
  · rintro ⟨node, votes⟩ disk (⟨hnone, hm⟩ | ⟨rfl, rfl, k, hsome⟩ | ⟨hnone, e', hpath, hhard⟩)
    · cases hnone
      exact .of_rest hm (Or.inl rfl) (Effects.no_vote rfl)
    · cases hsome
      refine .silent (.refl e) ⟨h.hard, ?_, ?_, ?_⟩ (Effects.no_vote rfl)
      · intro hl
        have := h.main.office hl
        rw [hmain] at this
        cases this
      · exact fun hc hd => absurd ((hsober hc).symm.trans hd) Bool.false_ne_true
      · intro hc req hreq
        cases hreq
        exact hcampaign hc
    · cases hnone
      exact .silent hpath ⟨hhard, .rest (Or.inl rfl)⟩ (Effects.no_vote rfl)

/-- Entering the loop of the current role. -/
theorem ServerMirror.dispatch (h : ServerMirror e id sv) {input : Input} :
    MirroredAfter m e id input (Server.onDisk sv.disk (sv.dispatch, {})) := by
  have hplain : ∀ main : MainLoop, main.campaign = none →
      (sv.node.role = .leader → main.canvassing = false) →
      (sv.node.role = .candidate → sv.node.degraded = true → main = .idle ∨ main = .stopped) →
      MirroredAfter m e id input ({ sv with main := main }, {}) :=
    fun main hcampaign hoffice hsober =>
      .silent (.refl e) ⟨h.hard, hoffice, hsober, fun _ _ hreq => by
        rw [hcampaign] at hreq
        cases hreq⟩ nofun
  unfold NodeProcess.dispatch
  split
  · exact hplain .stopped rfl (fun _ => rfl) (fun _ _ => Or.inr rfl)
  · rename_i hd
    cases hrole : sv.node.role with
    | follower => exact hplain .following rfl (by rw [hrole]; nofun) (by rw [hrole]; nofun)
    | candidate => exact hplain .starting rfl (by rw [hrole]; nofun) (fun _ hdeg => absurd hdeg hd)
    | leader => exact hplain (.leading []) rfl (fun _ => rfl) (by rw [hrole]; nofun)

/-- Starting an election. -/
theorem ServerMirror.startElection (h : ServerMirror e id sv) (hself : sv.node.id = id) (hname : id ≠ "")
    {fates : List Fate} {input : Input} (hmain : sv.main = .starting) :
    MirroredAfter m e id input (sv.carryOut fates sv.planStartElection) := by
  have hrole : sv.node.role ≠ .leader := by
    intro hl
    have := h.main.office hl
    rw [hmain] at this
    cases this
  have hsober : sv.node.role = .candidate → sv.node.degraded = false := by
    intro hc
    by_contra hd
    rcases h.main.sober hc (Bool.not_eq_false _ ▸ hd) with hrest | hrest <;> simp [hmain] at hrest
  refine ServerMirror.perform (h.hard.startElection hself hname hrole) ?_
  rintro ⟨node, _ | req⟩ disk ⟨e', hpath, hhard, hnotleader, hfollower, hstarted⟩
  · exact .silent hpath ⟨hhard, .rest (Or.inl rfl)⟩ nofun
  · obtain ⟨hterm, hsame, hdeg, hst⟩ := hstarted req rfl
    refine .silent hpath ⟨hhard, fun hl => absurd hl hnotleader, fun hc hd => ?_, fun hc r hr => ?_⟩ nofun
    · have hd' : node.degraded = true := hd
      rw [hdeg, hsober (hsame.symm.trans hc)] at hd'
      cases hd'
    · cases hr
      exact ⟨hterm, hst (hsame.symm.trans hc)⟩

/-- Every step of a server mirrors the election protocol. -/
theorem ServerMirror.move (hinv : ElectionInvariant m.quorums e) (h : ServerMirror e id sv)
    (hself : sv.node.id = id) (hname : id ≠ "") {fresh : ℕ} {fates : List Fate} {input : Input}
    {result : Server × Effects} (hin : InputMirror m e id sv input)
    (hmove : sv.Move fresh fates input result) : MirroredAfter m e id input result := by
  -- steps that only touch other fields of the node, with the main loop left alone
  have hquiet : ∀ {result : Server × Effects} {input : Input},
      result.1.node.currentTerm = sv.node.currentTerm → result.1.node.votedFor = sv.node.votedFor →
      result.1.node.degraded = sv.node.degraded → result.1.node.role = sv.node.role →
      result.1.disk.hard = sv.disk.hard → result.1.main = sv.main →
      (∀ resp, result.2.reply ≠ some (.vote resp)) → MirroredAfter m e id input result :=
    fun h₁ h₂ h₃ h₄ h₅ hmain hsilent => h.subside (h.hard.mirrored h₁ h₂ h₃ h₄ h₅) hmain hsilent
  -- steps that move the main loop within `runLeader`
  have hleading : ∀ {result : Server × Effects} {input : Input},
      Mirrored m e id sv.node result.1.node result.1.disk →
      (∃ todo, sv.main = .leading todo) ∨ (∃ peer todo, sv.main = .appending peer todo) →
      result.1.main.campaign = none → result.1.main.canvassing = false →
      (∀ resp, result.2.reply ≠ some (.vote resp)) → MirroredAfter m e id input result := by
    rintro result input ⟨e', hpath, hhard, hsub⟩ hmain hcampaign hcanvass hsilent
    have hm := h.main.subside hsub
    refine .silent hpath ⟨hhard, fun _ => hcanvass, fun hc hd => ?_, fun _ req hreq => ?_⟩ hsilent
    · rcases hm.sober hc hd with hrest | hrest <;>
        rcases hmain with ⟨todo, hmain⟩ | ⟨peer, todo, hmain⟩ <;> simp [hmain] at hrest
    · rw [hcampaign] at hreq
      cases hreq
  cases hmove with
  | restart => exact Recoverable.reboot (h.hard.recoverable rfl) _ _ rfl
  | dispatch => exact h.dispatch
  | electionReset => exact hquiet rfl rfl rfl rfl rfl rfl (Effects.no_vote rfl)
  | electionTimeout =>
    exact .silent (.refl e)
      ⟨⟨h.hard.disk, h.hard.memory, h.hard.ahead, fun hl => by cases hl⟩, .rest (Or.inl rfl)⟩ (Effects.no_vote rfl)
  | startElection hmain => exact h.startElection hself hname hmain
  | openPoll hmain =>
    refine .silent (.refl e) ⟨h.hard, fun hl => ?_, fun hc hd => ?_, fun hc r hr => ?_⟩ (Effects.no_vote rfl)
    · have := h.main.office hl
      rw [hmain] at this
      cases this
    · rcases h.main.sober hc hd with hrest | hrest <;> simp [hmain] at hrest
    · cases hr
      exact h.main.campaign hc _ (by rw [hmain]; rfl)
  | voteAnswered hmain hawaited => exact h.voteAnswered hinv hmain hawaited hin
  | pollTimeout => exact .of_rest h.hard.unchanged (Or.inl rfl) (Effects.no_vote rfl)
  | startRoundNotified hmain =>
    exact hleading (h.hard.mirrored rfl rfl rfl rfl rfl) (Or.inl ⟨_, hmain⟩) rfl rfl (Effects.no_vote rfl)
  | startRound hmain => exact hleading h.hard.unchanged (Or.inl ⟨_, hmain⟩) rfl rfl (Effects.no_vote rfl)
  | visit hmain hpeer =>
    refine ServerMirror.perform (Node.installSnapshotRequestForPeer_rule (fun _ _ => h.hard.recoverable rfl)
      (Q := fun r d' => Mirrored m e id sv.node r.1 d') (fun _ => h.hard.unchanged)
      (fun _ _ => h.hard.unchanged) (fun _ _ => h.hard.mirrored rfl rfl rfl rfl rfl)
      (fun _ _ _ _ _ => h.hard.mirrored rfl rfl rfl rfl rfl)) ?_
    rintro ⟨node, _ | _ | req⟩ disk hm
    · exact .of_rest hm (Or.inl rfl) (Effects.no_vote rfl)
    · exact hleading hm (Or.inl ⟨_, hmain⟩) rfl rfl (Effects.no_vote rfl)
    · exact hleading hm (Or.inl ⟨_, hmain⟩) rfl rfl (Effects.no_vote rfl)
  | appendTurn hmain =>
    refine ServerMirror.perform (Node.appendEntriesRequestForPeer_rule
      (Q := fun r d' => Mirrored m e id sv.node r.1 d') (fun _ _ _ => h.hard.recoverable rfl)
      (fun _ => h.hard.unchanged) (fun _ _ => h.hard.mirrored rfl rfl rfl rfl rfl)
      (fun _ _ _ _ => h.hard.mirrored rfl rfl rfl rfl rfl)) ?_
    rintro ⟨node, _ | _ | req⟩ disk hm
    · exact .of_rest hm (Or.inl rfl) (Effects.no_vote rfl)
    · exact hleading hm (Or.inr ⟨_, _, hmain⟩) rfl rfl (Effects.no_vote rfl)
    · exact hleading hm (Or.inr ⟨_, _, hmain⟩) rfl rfl (Effects.no_vote rfl)
  | appendAnswered =>
    exact ServerMirror.perform (h.hard.handleAppendEntriesResponse hinv _ _ _)
      fun r disk hm => h.subside hm rfl (Effects.no_vote rfl)
  | installAnswered =>
    exact ServerMirror.perform (h.hard.handleInstallSnapshotResponse hinv _ _ _)
      fun r disk hm => h.subside hm rfl (Effects.no_vote rfl)
  | callFailed => exact hquiet rfl rfl rfl rfl rfl rfl (Effects.no_vote rfl)
  | signal =>
    refine h.subside ?_ rfl (Effects.no_vote rfl)
    simp only [NodeProcess.stepSignal]
    split <;> split <;> exact h.hard.mirrored rfl rfl rfl rfl rfl
  | receive req => exact h.receive hinv hin
  | startCommand cmd =>
    exact ServerMirror.perform (h.hard.startCommand cmd) fun r disk hm => h.subside hm rfl (Effects.no_vote rfl)
  | takeSnapshot index data =>
    refine ServerMirror.perform (h.hard.takeSnapshot index data) ?_
    rintro ⟨node, err | ⟨⟨⟩⟩⟩ disk hm <;> exact h.subside hm rfl (Effects.no_vote rfl)
  | finish | notify | wakeApply | drain | sendSnapshot | recordSnapshot | sendEntry =>
    exact hquiet rfl rfl rfl rfl rfl rfl (Effects.no_vote rfl)
  | pickEntry =>
    exact ServerMirror.perform (Node.nextToApply_rule (Q := fun r d' => Mirrored m e id sv.node r.1 d')
      (fun _ _ _ => h.hard.recoverable rfl) h.hard.unchanged
      (fun _ _ _ => h.hard.mirrored rfl rfl rfl rfl rfl)) fun r disk hm => h.subside hm rfl (Effects.no_vote rfl)

/-- A cluster follows the election protocol. -/
structure ElectionRefines (m : Membership) (c : Cluster) (e : ElectionState String Int) : Prop where
  wired : Wired m c
  servers : ∀ id ∈ m.ids, ServerMirror e id (c.servers id)
  votes : ∀ handle call req resp, c.calls[handle]? = some call → call.request = .vote req →
    (handle, Reply.vote resp) ∈ c.replies → resp.voteGranted = true →
    e.ballot req.term call.callee = some call.caller

/-- A candidate whose count reaches the majority has the ballots of a quorum. -/
theorem ElectionRefines.quorum {c : Cluster} (h : ElectionRefines m c e)
    (hinv : ElectionInvariant m.quorums e) (hid : id ∈ m.ids) {poll : Poll} {handle : ℕ}
    {resp : RequestVoteResponse} (hmain : (c.servers id).main = .polling poll)
    (hawaited : handle ∈ poll.awaiting) (hreply : (handle, Reply.vote resp) ∈ c.replies)
    (hst : e.standing id = .candidate) (hterm : e.term id = poll.request.term)
    (hmajority : poll.majority ≤ if resp.voteGranted then poll.votes + 1 else poll.votes) :
    ∃ Q, m.quorums.IsQuorum Q ∧ ∀ v ∈ Q, e.ballot (e.term id) v = some id := by
  have hpoll : PollWired m c.calls c.replies id poll := by
    have := (h.wired.servers id hid).main
    rwa [hmain] at this
  obtain ⟨Q, hQ, hgranted⟩ := hpoll.quorum hid hawaited hreply hmajority
  refine ⟨Q, hQ, fun v hv => ?_⟩
  rcases hgranted v hv with rfl | ⟨handle', resp', hcall, hreply', hgr⟩
  · exact hinv.own_ballot v (by rw [hst]; nofun)
  · rw [hterm]
    exact h.votes handle' _ _ resp' hcall rfl hreply' hgr

/-- What the network contributes to a step is backed by the election protocol. -/
theorem ElectionRefines.input {c : Cluster} (h : ElectionRefines m c e)
    (hinv : ElectionInvariant m.quorums e) {a : Action} {input : Input} {served : Option ℕ}
    (hsource : Cluster.Source m.ids c a id input served) : InputMirror m e id (c.servers id) input where
  candidate req hreq := by
    cases hsource with
    | act hid hlocal =>
      subst hreq
      cases hlocal
    | deliver hcall =>
      have hwired := h.wired.calls _ (List.mem_of_getElem? hcall)
      rw [hwired.vote req (Input.receive.inj hreq)]
      exact fun hempty => m.nonempty (hempty ▸ hwired.caller)
    | @answer handle call reply fates hcall hreply => cases reply <;> cases hreq
  quorum handle resp poll hvote hmain hawaited hst hterm hmajority := by
    cases hvote
    have hin := h.wired.source hsource
    exact h.quorum hinv hin.1 hmain hawaited (hin.2.vote handle resp rfl) hst hterm hmajority

/-- Every step of a cluster is followed by election steps. -/
theorem ElectionRefines.step {c c' : Cluster} (h : ElectionRefines m c e)
    (hrun : Reachable ElectionState.First (ElectionStep m.quorums) e) {a : Action}
    (hstep : c.step m.ids a = some c') :
    ∃ e', Relation.ReflTransGen (ElectionStep m.quorums) e e' ∧ ElectionRefines m c' e' := by
  have hinv := electionInvariant_of_reachable hrun
  have hwired' := h.wired.step hstep
  obtain ⟨id, input, served, after, effects, hsource, hmove, rfl⟩ := Cluster.step_cases hstep
  have hid := (h.wired.source hsource).1
  have hname : id ≠ "" := fun hempty => m.nonempty (hempty ▸ hid)
  obtain ⟨e', hpath, hserver, hballot⟩ := (h.servers id hid).move hinv (h.wired.servers id hid).placed.self
    hname (h.input hinv hsource) hmove
  refine ⟨e', hpath.path, hwired', fun other hother => ?_, fun handle call req resp hcall hreq hreply hgr => ?_⟩
  · by_cases heq : other = id
    · subst other
      rw [Cluster.record_servers_self]
      exact hserver
    · rw [Cluster.record_servers_of_ne _ _ _ _ _ heq]
      exact (h.servers other hother).of_view (hpath.others other heq)
  · rcases Cluster.mem_record_replies hreply with hold | ⟨rfl, hreplied⟩
    · have hcall' := h.wired.answered hold (List.prefix_append ..) hcall
      exact ballot_mono_of_path hrun hpath.path (h.votes handle call req resp hcall' hreq hold hgr)
    · obtain ⟨call₀, hcall₀, rfl, rfl⟩ := hsource.serves
      have hsame : call₀ = call :=
        Option.some.inj ((getElem?_of_initial (List.prefix_append ..) hcall₀).symm.trans hcall)
      subst call₀
      rw [← (h.wired.calls call (List.mem_of_getElem? hcall₀)).vote req hreq]
      exact hballot req resp (by rw [hreq]) hreplied hgr

/-- The election protocol before anything has happened. -/
def firstElection : ElectionState String Int where
  term _ := 0
  standing _ := .follower
  ballot _ _ := none
  leader _ := none

/-- A new cluster follows the election protocol. -/
theorem electionRefines_first (m : Membership) : ElectionRefines m (Cluster.first m.ids) firstElection where
  wired := wired_first m
  servers _ _ := DiskMirror.boot ⟨rfl, rfl⟩ _ _
  votes _ _ _ _ _ _ hreply := absurd hreply List.not_mem_nil

/-- Every state of a cluster, and every later one, is related to states of the election protocol
reached in the same order. -/
theorem electionRefines_of_path {allowed : Cluster → Action → Prop} {c c' : Cluster}
    (run : ClusterReachable m allowed c) (path : Relation.ReflTransGen (ClusterStep m allowed) c c') :
    ∃ e e', Reachable ElectionState.First (ElectionStep m.quorums) e ∧ ElectionRefines m c e ∧
      Relation.ReflTransGen (ElectionStep m.quorums) e e' ∧ ElectionRefines m c' e' := by
  have hstep : ∀ c c' e, Reachable ElectionState.First (ElectionStep m.quorums) e →
      ElectionRefines m c e → ClusterStep m allowed c c' →
      ∃ e', Relation.ReflTransGen (ElectionStep m.quorums) e e' ∧ ElectionRefines m c' e' :=
    fun _ _ _ hrun h ⟨_, _, hs⟩ => h.step hrun hs
  have hfirst : ∀ c, c = Cluster.first m.ids →
      ∃ e, ElectionState.First e ∧ ElectionRefines m c e := by
    rintro c rfl
    exact ⟨firstElection, ⟨fun _ => rfl, fun _ _ => rfl, fun _ => rfl⟩, electionRefines_first m⟩
  obtain ⟨e, hrun, h⟩ := Reachable.simulate hfirst hstep run
  obtain ⟨e', hpath, h'⟩ := simulate_path hstep hrun h path
  exact ⟨e, e', hrun, h, hpath, h'⟩

/-- **Election safety.** In any run, with messages lost, delayed, reordered and repeated, storage
calls failing and processes crashing at any of them, two nodes that are leaders of one term, at the
same or at different times, are the same node. -/
theorem election_safety (m : Membership) {c c' : Cluster} (run : ClusterReachable m (fun _ _ => True) c)
    (path : Relation.ReflTransGen (ClusterStep m fun _ _ => True) c c') {v w : String}
    (hv : v ∈ m.ids) (hw : w ∈ m.ids) (hleads : (c.servers v).node.role = .leader)
    (hleads' : (c'.servers w).node.role = .leader)
    (hterm : (c.servers v).node.currentTerm = (c'.servers w).node.currentTerm) : v = w := by
  obtain ⟨e, e', hrun, h, hpath, h'⟩ := electionRefines_of_path run path
  obtain ⟨hv₁, _, hv₂⟩ := (h.servers v hv).hard.leader hleads
  obtain ⟨hw₁, _, hw₂⟩ := (h'.servers w hw).hard.leader hleads'
  refine single_leader hrun hpath hv₂ hw₂ ?_
  rw [(h.servers v hv).hard.disk.term, (h'.servers w hw).hard.disk.term, ← hv₁, ← hw₁, hterm]

/-- After node `a` has crashed once and then won an election, it is a leader, and no other. -/
theorem election_safety_after_crash :
    ∃ c, ClusterReachable threeNodes (fun _ _ => True) c ∧ (c.servers "a").node.role = .leader ∧
      (c.servers "a").node.currentTerm = 1 ∧ "a" = "a" := by
  have hrun : ((Cluster.first threeNodes.ids).run threeNodes (fun _ _ => True)
      ([.act "a" .dispatch [], .act "a" .electionTimeout [], .act "a" .dispatch [],
        .act "a" .startElection [.crashes]] ++ electionOf "a" 0 1)).map
      (fun c => ((c.servers "a").node.role, (c.servers "a").node.currentTerm)) = some (.leader, 1) := by
    decide +kernel
  obtain ⟨c, hc, hfacts⟩ := exists_reachable_of_run hrun
  obtain ⟨hrole, hterm⟩ := Prod.mk.inj hfacts
  exact ⟨c, hc, hrole, hterm,
    election_safety threeNodes hc .refl (by decide) (by decide) hrole hrole rfl⟩

end ConsensusLab.Raft
