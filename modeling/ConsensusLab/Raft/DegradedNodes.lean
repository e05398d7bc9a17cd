import ConsensusLab.Raft.StandingChanges
import ConsensusLab.Raft.ServerRuns

/-!
# What a degraded node still does

A node is degraded when it could not save its state outside a handler. The handlers,
`StartCommand` and the loop of `run` look at that, the loops inside do not. A leader
that is degraded while it saves a new commit index goes on replicating and committing,
and a node that is degraded between reading its role as candidate and asking for votes
still asks. Where every save that fails belongs to an election's start, or retires a
node whose main loop is not about to ask for votes, the node takes no further part.
-/

namespace ConsensusLab.Raft

open Foundation

/-- `runCandidate` has been entered and has not asked for votes yet. -/
def MainLoop.soliciting : MainLoop → Bool
  | starting | opening _ => true
  | idle | following | polling _ | leading _ | appending _ _ | stopped => false

/-- A storage call that fails in this step does not degrade the node, or degrades it as a follower that
is not about to ask for votes. -/
def RetiringFailures (sv : Server) (drive : Drive) : Prop :=
  .fails ∈ drive.fates →
    match drive.input with
    -- the failing call is `AppendLog`, not the save of a commit index
    | .startCommand _ => drive.fates.head? = some .fails
    | .appendAnswered _ resp => sv.node.currentTerm < resp.term ∧ sv.main.soliciting = false
    | .installAnswered _ _ => sv.main.soliciting = false
    | _ => True

instance (sv : Server) (drive : Drive) : Decidable (RetiringFailures sv drive) := by
  unfold RetiringFailures
  split <;> infer_instance

/-- A step takes no part in the protocol: it builds no request, grants no vote, accepts no command and
commits nothing. -/
structure Server.Inert (sv : Server) (result : Server × Effects) : Prop where
  calls : result.2.calls = []
  poll : ∀ req, result.1.main = .opening req → sv.main = .opening req
  votes : ∀ resp, result.2.reply = some (.vote resp) → resp.voteGranted = false
  accepted : result.2.accepted = none
  commit : result.1.node.commitIndex ≤ sv.node.commitIndex

/-- A degraded node is a follower that is not about to ask for votes, or a candidate whose main loop is
over. -/
def Server.Sidelined (sv : Server) : Prop :=
  sv.node.degraded = true →
    (sv.node.role = .follower ∧ sv.main.soliciting = false) ∨
      (sv.node.role = .candidate ∧ (sv.main = .idle ∨ sv.main = .stopped))

section Failures

variable {n : Node} {d : PersistentState}

/-- Advancing the commit index degrades the node only where the save fails. -/
theorem advanceCommitIndex_degraded :
    n.advanceCommitIndex.Ensures False (fun _ => True) (fun r _ => r.1.degraded = n.degraded) d :=
  Node.advanceCommitIndex_rule (fun _ => trivial) rfl fun _ _ => ⟨nofun, rfl⟩

/-- So does stepping down. -/
theorem stepDown_degraded (term : Int) :
    (n.stepDown term).Ensures False (fun _ => True) (fun n' _ => n'.degraded = n.degraded) d :=
  Node.stepDown_rule nofun rfl

/-- So does processing an AppendEntries response. -/
theorem handleAppendEntriesResponse_degraded (peerID : String) (req : AppendEntriesRequest)
    (resp : AppendEntriesResponse) :
    (n.handleAppendEntriesResponse peerID req resp).Ensures False (fun _ => True)
      (fun r _ => r.1.degraded = n.degraded) d :=
  Node.handleAppendEntriesResponse_rule (fun _ => stepDown_degraded _) (fun _ _ => rfl) (fun _ _ _ _ => rfl)
    fun _ _ _ _ => advanceCommitIndex_degraded (n := n.recordProgress peerID _)

/-- So does processing an InstallSnapshot response. -/
theorem handleInstallSnapshotResponse_degraded (peerID : String) (req : InstallSnapshotRequest)
    (resp : InstallSnapshotResponse) :
    (n.handleInstallSnapshotResponse peerID req resp).Ensures False (fun _ => True)
      (fun n' _ => n'.degraded = n.degraded) d :=
  Node.handleInstallSnapshotResponse_rule (fun _ => stepDown_degraded _) (fun _ _ => rfl) fun _ _ _ => rfl

/-- So does starting a command. -/
theorem startCommand_degraded (cmd : Bytes) :
    (n.startCommand cmd).Ensures False (fun _ => True) (fun r _ => r.1.degraded = n.degraded) d := by
  refine Node.startCommand_rule (fun _ => rfl) (fun _ _ => nofun) fun _ _ => ?_
  refine (advanceCommitIndex_degraded (n := n.appended cmd)).mono (fun _ h => h) ?_
  intro moved _ hm
  change (if moved.2 then moved.1.notifyApply else moved.1).degraded = n.degraded
  split <;> exact hm

/-- A command whose entry cannot be stored leaves the node as it was. -/
theorem startCommand_unstored {sv : Server} {fates : List Fate} (cmd : Bytes)
    (h : fates.head? = some .fails) :
    (sv.carryOut fates (sv.planStartCommand cmd)).1.node.degraded = sv.node.degraded ∧
      (sv.carryOut fates (sv.planStartCommand cmd)).1.main = sv.main := by
  obtain ⟨rest, rfl⟩ := List.head?_eq_some_iff.mp h
  by_cases hrefuse : sv.node.degraded = true ∨ sv.node.role ≠ .leader
  · simp only [Server.carryOut, NodeProcess.planStartCommand, Server.perform, Node.startCommand, if_pos hrefuse]
    exact ⟨rfl, rfl⟩
  · simp only [Server.carryOut, NodeProcess.planStartCommand, Server.perform, Node.startCommand, if_neg hrefuse,
      Node.logTo_append]
    exact ⟨rfl, rfl⟩

/-- The handlers of a degraded node do nothing. -/
theorem receive_of_degraded {sv : Server} {fates : List Fate} (req : Request) (h : sv.node.degraded = true) :
    sv.carryOut fates (sv.planReceive req) = (sv, { failed := some .nodeDegraded }) := by
  cases req with
  | vote req =>
    simp only [Server.carryOut, NodeProcess.planReceive, Server.perform, Node.handleRequestVote, h]
    rfl
  | append req =>
    simp only [Server.carryOut, NodeProcess.planReceive, Server.perform, Node.handleAppendEntries, h]
    rfl
  | install req =>
    simp only [Server.carryOut, NodeProcess.planReceive, Server.perform, Node.handleInstallSnapshot, h]
    rfl

end Failures

namespace Server.Sidelined

variable {sv sv' : Server} {result : Server × Effects} {fresh : ℕ} {fates : List Fate} {input : Input}

/-- A healthy server is not sidelined, and need not be. -/
theorem of_healthy (h : sv.node.degraded = false) : sv.Sidelined := by
  intro hdegraded
  rw [h] at hdegraded
  cases hdegraded

/-- A degraded node that is sidelined leads nothing. -/
theorem not_leader (h : sv.Sidelined) (hdegraded : sv.node.degraded = true) : sv.node.role ≠ .leader := by
  rcases h hdegraded with ⟨hrole, _⟩ | ⟨hrole, _⟩ <;> rw [hrole] <;> nofun

/-- A degraded node that is sidelined is not about to ask for votes. -/
theorem not_soliciting (h : sv.Sidelined) (hdegraded : sv.node.degraded = true) :
    sv.main.soliciting = false := by
  rcases h hdegraded with ⟨_, hmain⟩ | ⟨_, hmain | hmain⟩
  · exact hmain
  · rw [hmain]
    rfl
  · rw [hmain]
    rfl

/-- A degraded node whose main loop is not over is a follower. -/
theorem follower (h : sv.Sidelined) (hdegraded : sv.node.degraded = true) (hidle : sv.main ≠ .idle)
    (hstopped : sv.main ≠ .stopped) : sv.node.role = .follower := by
  rcases h hdegraded with ⟨hrole, _⟩ | ⟨_, hmain⟩
  · exact hrole
  · exact absurd hmain (not_or.mpr ⟨hidle, hstopped⟩)

/-- A server that has just started is healthy. -/
theorem boot (id : String) (peers : List String) (disk : PersistentState) :
    (Server.boot id peers disk).Sidelined :=
  of_healthy (newNode_degraded id peers disk)

/-- A change of the standing keeps the node sidelined, if it is degraded only as a follower. -/
theorem change (h : sv.Sidelined) (hchange : StandingChange sv.node sv'.node)
    (hmain : sv'.main = sv.main ∨
      (sv'.main.soliciting = false ∧ sv.main ≠ .idle ∧ sv.main ≠ .stopped))
    (hstruck : sv.node.degraded = false → sv'.node.degraded = true →
      sv'.node.role = .follower ∧ sv.main.soliciting = false) : sv'.Sidelined := by
  intro hdegraded'
  have hquiet : sv.main.soliciting = false → sv'.main.soliciting = false := by
    intro hsv
    rcases hmain with hsame | ⟨hout, _⟩
    · rw [hsame, hsv]
    · exact hout
  cases hdegraded : sv.node.degraded with
  | false =>
    obtain ⟨hrole, hout⟩ := hstruck hdegraded hdegraded'
    exact Or.inl ⟨hrole, hquiet hout⟩
  | true =>
    have hout := hquiet (h.not_soliciting hdegraded)
    cases hchange with
    | kept hrole =>
      rcases h hdegraded with ⟨hfollower, _⟩ | ⟨hcandidate, hover⟩
      · exact Or.inl ⟨hrole.trans hfollower, hout⟩
      · rcases hmain with hsame | ⟨_, hidle, hstopped⟩
        · exact Or.inr ⟨hrole.trans hcandidate, by rw [hsame]; exact hover⟩
        · exact absurd hover (not_or.mpr ⟨hidle, hstopped⟩)
    | followed hhealthy =>
      rw [hdegraded] at hhealthy
      cases hhealthy
    | retired hrole => exact Or.inl ⟨hrole, hout⟩
    | committed hleads => exact absurd hleads (h.not_leader hdegraded)

/-- A degraded node that is sidelined commits nothing. -/
theorem commitIndex_le (h : sv.Sidelined) (hdegraded : sv.node.degraded = true) {n' : Node}
    (hchange : StandingChange sv.node n') : n'.commitIndex ≤ sv.node.commitIndex := by
  cases hchange with
  | kept _ hcommit => exact Int.le_of_eq hcommit
  | followed hhealthy =>
    rw [hdegraded] at hhealthy
    cases hhealthy
  | retired _ hcommit => exact Int.le_of_eq hcommit
  | committed hleads => exact absurd hleads (h.not_leader hdegraded)

/-- A step is inert if it commits nothing, does not bring the main loop to ask for votes, and shows no
call, no response and no accepted command. -/
theorem inert_of_quiet (hcalls : result.2.calls = []) (hreply : result.2.reply = none)
    (haccepted : result.2.accepted = none) (hmain : result.1.main = sv.main ∨ result.1.main.soliciting = false)
    (hcommit : result.1.node.commitIndex ≤ sv.node.commitIndex) : sv.Inert result := by
  refine ⟨hcalls, ?_, ?_, haccepted, hcommit⟩
  · intro req hopening
    rcases hmain with hsame | hout
    · rw [← hsame, hopening]
    · rw [hopening] at hout
      cases hout
  · intro resp hgranted
    rw [hreply] at hgranted
    cases hgranted

section Perform

variable {A : Type} {p : Section A} {next : A → PersistentState → Server × Effects} {f : A → Node}
  {Q : A → Prop}

/-- A performed section keeps the server sidelined, if it degrades the node only as a follower. -/
theorem perform (h : sv.Sidelined)
    (hp : p.Ensures True (fun _ => True) (fun r _ => StandingChange sv.node (f r) ∧ Q r) sv.disk)
    (hnode : ∀ r disk, (next r disk).1.node = f r)
    (hmain : ∀ r disk, (next r disk).1.main = sv.main ∨
      ((next r disk).1.main.soliciting = false ∧ sv.main ≠ .idle ∧ sv.main ≠ .stopped))
    (hstruck : ∀ r, Q r → sv.node.degraded = false → (f r).degraded = true →
      (f r).role = .follower ∧ sv.main.soliciting = false) :
    (sv.perform fates p next).1.Sidelined := by
  refine Server.perform_rule (P := fun result => result.1.Sidelined) hp (Or.inl trivial) ?_
    fun _ disk _ => boot sv.node.id sv.node.peers disk
  intro r disk hr
  refine h.change (by rw [hnode]; exact hr.1) (hmain r disk) ?_
  rw [hnode]
  exact hstruck r hr.2

/-- A section that never degrades the node. -/
theorem perform_healthy (h : sv.Sidelined)
    (hp : p.Ensures True (fun _ => True) (fun r _ => HealthyChange sv.node (f r)) sv.disk)
    (hnode : ∀ r disk, (next r disk).1.node = f r)
    (hmain : ∀ r disk, (next r disk).1.main = sv.main ∨
      ((next r disk).1.main.soliciting = false ∧ sv.main ≠ .idle ∧ sv.main ≠ .stopped)) :
    (sv.perform fates p next).1.Sidelined := by
  refine h.perform (Q := fun r => (f r).degraded = sv.node.degraded)
    (hp.mono (fun _ h => h) fun _ _ hr => ⟨hr.change, hr.degraded⟩) hnode hmain ?_
  intro r hsame hhealthy hdegraded
  rw [hsame, hhealthy] at hdegraded
  cases hdegraded

/-- A section that degrades the node only where a storage call fails, with what follows from that. -/
theorem perform_failing (h : sv.Sidelined)
    (hp : p.Ensures True (fun _ => True) (fun r _ => StandingChange sv.node (f r) ∧ Q r) sv.disk)
    (hkeeps : p.Ensures False (fun _ => True) (fun r _ => (f r).degraded = sv.node.degraded) sv.disk)
    (hnode : ∀ r disk, (next r disk).1.node = f r) (hmain : ∀ r disk, (next r disk).1.main = sv.main)
    (hstruck : .fails ∈ fates → ∀ r, Q r → sv.node.degraded = false → (f r).degraded = true →
      (f r).role = .follower ∧ sv.main.soliciting = false) :
    (sv.perform fates p next).1.Sidelined := by
  by_cases hfates : .fails ∈ fates
  · exact h.perform hp hnode (fun r disk => Or.inl (hmain r disk)) (hstruck hfates)
  · cases hdegraded : sv.node.degraded with
    | false =>
      apply of_healthy
      refine Server.perform_rule_of_not_fails (P := fun result => result.1.node.degraded = false) hkeeps
        hfates ?_ fun _ disk => newNode_degraded sv.node.id sv.node.peers disk
      intro r disk hr
      rw [hnode, hr, hdegraded]
    | true =>
      refine h.perform hp hnode (fun r disk => Or.inl (hmain r disk)) ?_
      intro _ _ hhealthy
      rw [hdegraded] at hhealthy
      cases hhealthy

/-- A performed section of a degraded node is inert, if its effects are. -/
theorem perform_inert (h : sv.Sidelined) (hdegraded : sv.node.degraded = true)
    (hp : p.Ensures True (fun _ => True) (fun r _ => StandingChange sv.node (f r) ∧ Q r) sv.disk)
    (hnode : ∀ r disk, (next r disk).1.node = f r)
    (hmain : ∀ r disk, (next r disk).1.main = sv.main ∨ (next r disk).1.main.soliciting = false)
    (heffects : ∀ r disk, Q r → (next r disk).2.calls = [] ∧ (next r disk).2.reply = none ∧
      (next r disk).2.accepted = none)
    (hlost : (sv.perform fates p next).2.lost = none) : sv.Inert (sv.perform fates p next) := by
  revert hlost
  refine Server.perform_rule (P := fun result => result.2.lost = none → sv.Inert result) hp
    (Or.inl trivial) ?_ (fun _ _ _ => nofun)
  intro r disk hr _
  obtain ⟨hcalls, hreply, haccepted⟩ := heffects r disk hr.2
  refine inert_of_quiet hcalls hreply haccepted (hmain r disk) ?_
  rw [hnode]
  exact h.commitIndex_le hdegraded hr.1

end Perform

/-- The answer of a handler leaves the main loop where it is. -/
theorem receive (h : sv.Sidelined) (req : Request) : (sv.carryOut fates (sv.planReceive req)).1.Sidelined := by
  have hnode : ∀ {R : Type} (wrap : R → Reply) (r : Node × Except RaftError R) disk,
      (Server.onDisk disk (sv.handled wrap r)).1.node = r.1 := by
    rintro R wrap ⟨n, _ | _⟩ disk <;> rfl
  have hmain : ∀ {R : Type} (wrap : R → Reply) (r : Node × Except RaftError R) disk,
      (Server.onDisk disk (sv.handled wrap r)).1.main = sv.main := by
    rintro R wrap ⟨n, _ | _⟩ disk <;> rfl
  cases req with
  | vote req =>
    exact h.perform_healthy (standing_handleRequestVote req) (hnode _) fun r disk => Or.inl (hmain _ r disk)
  | append req =>
    exact h.perform_healthy (standing_handleAppendEntries req) (hnode _) fun r disk => Or.inl (hmain _ r disk)
  | install req =>
    exact h.perform_healthy (standing_handleInstallSnapshot req) (hnode _) fun r disk =>
      Or.inl (hmain _ r disk)

/-- Starting an election is where `runCandidate` is entered: no degraded node gets there. -/
theorem startElection (h : sv.Sidelined) (hmain : sv.main = .starting) :
    (sv.carryOut fates sv.planStartElection).1.Sidelined := by
  have hhealthy : sv.node.degraded = false := by
    cases hdegraded : sv.node.degraded with
    | false => rfl
    | true =>
      have hout := h.not_soliciting hdegraded
      rw [hmain] at hout
      cases hout
  refine Server.perform_rule (P := fun result => result.1.Sidelined) standing_startElection
    (Or.inl trivial) ?_ fun _ disk _ => boot sv.node.id sv.node.peers disk
  rintro ⟨node, _ | req⟩ disk ⟨_, hstarted, hgivenUp⟩
  · intro _
    exact Or.inl ⟨hgivenUp rfl, rfl⟩
  · exact of_healthy ((hstarted req rfl).trans hhealthy)

/-- Reading a vote makes no degraded node a leader. -/
theorem voteAnswered (h : sv.Sidelined) {poll : Poll} {handle : ℕ} {resp : RequestVoteResponse}
    (hmain : sv.main = .polling poll) : (sv.carryOut fates (sv.planVoteAnswered poll handle resp)).1.Sidelined := by
  refine Server.perform_rule (P := fun result => result.1.Sidelined) (standing_handleVoteResponse _ _ _)
    (Or.inl trivial) ?_ fun _ disk _ => boot sv.node.id sv.node.peers disk
  rintro ⟨node, count⟩ disk (⟨hchange, hfollower, hcount⟩ | ⟨hwins, _⟩)
  · have hout : (count.elim MainLoop.idle fun count =>
        .polling { poll with votes := count, awaiting := poll.awaiting.erase handle }).soliciting = false := by
      cases count <;> rfl
    refine h.change hchange (Or.inr ⟨hout, by rw [hmain]; nofun, by rw [hmain]; nofun⟩) ?_
    intro hhealthy hdegraded
    refine ⟨?_, by rw [hmain]; rfl⟩
    rcases hfollower with hrole | hsame
    · exact hrole
    · subst hsame
      exact absurd (hhealthy.symm.trans hdegraded) Bool.false_ne_true
  · have hnode : node = sv.node.becomeLeader := hwins.node
    apply of_healthy
    cases hdegraded : sv.node.degraded with
    | false =>
      subst hnode
      exact hdegraded
    | true =>
      have hrole := h.follower hdegraded (by rw [hmain]; nofun) (by rw [hmain]; nofun)
      rw [hwins.candidate] at hrole
      cases hrole

/-- A step whose storage failures retire the node keeps it sidelined. -/
theorem step (h : sv.Sidelined) (hmove : sv.Move fresh fates input result)
    (hfailures : RetiringFailures sv ⟨fresh, fates, input⟩) : result.1.Sidelined := by
  cases hmove with
  | restart => exact boot sv.node.id sv.node.peers sv.disk
  | dispatch hmain =>
    cases hdegraded : sv.node.degraded with
    | false =>
      apply of_healthy
      change sv.dispatch.node.degraded = false
      unfold NodeProcess.dispatch
      split
      · exact hdegraded
      · split <;> exact hdegraded
    | true =>
      have hstop : sv.dispatch = { sv with main := .stopped } := if_pos hdegraded
      rw [hstop]
      intro _
      rcases h hdegraded with ⟨hrole, _⟩ | ⟨hrole, _⟩
      · exact Or.inl ⟨hrole, rfl⟩
      · exact Or.inr ⟨hrole, Or.inr rfl⟩
  | electionTimeout hmain => exact fun _ => Or.inr ⟨rfl, Or.inl rfl⟩
  | startElection hmain => exact h.startElection hmain
  | openPoll hmain | pollTimeout hmain | startRoundNotified hmain | startRound hmain =>
    intro hdegraded
    exact Or.inl ⟨h.follower hdegraded (by rw [hmain]; nofun) (by rw [hmain]; nofun), rfl⟩
  | voteAnswered hmain _ => exact h.voteAnswered hmain
  | visit hmain _ =>
    refine h.perform_healthy (f := Prod.fst)
      ((standing_installSnapshotRequestForPeer _).mono (fun _ h => h) fun _ _ hr => hr.1) ?_ ?_
    · rintro ⟨node, _ | _ | req⟩ disk <;> rfl
    · rintro ⟨node, _ | _ | req⟩ disk <;>
        exact Or.inr ⟨rfl, by rw [hmain]; nofun, by rw [hmain]; nofun⟩
  | appendTurn hmain =>
    refine h.perform_healthy (f := Prod.fst)
      ((standing_appendEntriesRequestForPeer _).mono (fun _ h => h) fun _ _ hr => hr.1) ?_ ?_
    · rintro ⟨node, _ | _ | req⟩ disk <;> rfl
    · rintro ⟨node, _ | _ | req⟩ disk <;>
        exact Or.inr ⟨rfl, by rw [hmain]; nofun, by rw [hmain]; nofun⟩
  | appendAnswered =>
    refine h.perform_failing (f := Prod.fst) (standing_handleAppendEntriesResponse _ _ _)
      (handleAppendEntriesResponse_degraded _ _ _) (fun _ _ => rfl) (fun _ _ => rfl) ?_
    intro hfails r hr _ _
    obtain ⟨hlater, hout⟩ := hfailures hfails
    exact ⟨hr hlater, hout⟩
  | installAnswered =>
    refine h.perform_failing (f := id) (standing_handleInstallSnapshotResponse _ _ _)
      (handleInstallSnapshotResponse_degraded _ _ _) (fun _ _ => rfl) (fun _ _ => rfl) ?_
    intro hfails n' hn hhealthy hdegraded
    refine ⟨?_, hfailures hfails⟩
    rcases hn with hrole | hsame
    · exact hrole
    · exact absurd hdegraded (by rw [id_eq, hsame, hhealthy]; nofun)
  | receive req => exact h.receive req
  | startCommand cmd =>
    by_cases hfails : .fails ∈ fates
    · have hsame : (sv.carryOut fates (sv.planStartCommand cmd)).1.node.degraded = sv.node.degraded ∧
          (sv.carryOut fates (sv.planStartCommand cmd)).1.main = sv.main := startCommand_unstored cmd (hfailures hfails)
      cases hdegraded : sv.node.degraded with
      | false => exact of_healthy (hsame.1.trans hdegraded)
      | true =>
        refine h.perform (f := Prod.fst) (standing_startCommand cmd) (fun _ _ => rfl)
          (fun _ _ => Or.inl rfl) ?_
        intro _ _ hhealthy
        rw [hdegraded] at hhealthy
        cases hhealthy
    · exact h.perform_failing (f := Prod.fst) (standing_startCommand cmd) (startCommand_degraded cmd)
        (fun _ _ => rfl) (fun _ _ => rfl) fun hmem => absurd hmem hfails
  | takeSnapshot index data =>
    refine h.perform_healthy (f := Prod.fst) (standing_takeSnapshot index data) ?_ ?_
    · rintro ⟨node, _ | _⟩ disk <;> rfl
    · rintro ⟨node, _ | _⟩ disk <;> exact Or.inl rfl
  | pickEntry =>
    exact h.perform_healthy (f := Prod.fst) standing_nextToApply (fun _ _ => rfl) fun _ _ => Or.inl rfl
  | signal =>
    simp only [NodeProcess.stepSignal]
    split <;> split <;> exact h
  | electionReset | callFailed | finish | notify | wakeApply | drain | sendSnapshot | recordSnapshot | sendEntry => exact h

/-- A sidelined node that is degraded takes no part in the protocol. -/
theorem inert (h : sv.Sidelined) (hdegraded : sv.node.degraded = true)
    (hmove : sv.Move fresh fates input result) (hsame : input ≠ .restart)
    (hlost : result.2.lost = none) : sv.Inert result := by
  have hrole := h.not_leader hdegraded
  cases hmove with
  | restart => exact absurd rfl hsame
  | dispatch hmain =>
    have hstop : sv.dispatch = { sv with main := .stopped } := if_pos hdegraded
    rw [hstop]
    exact inert_of_quiet rfl rfl rfl (Or.inr rfl) (Int.le_refl _)
  | startElection hmain | openPoll hmain =>
    have hout := h.not_soliciting hdegraded
    rw [hmain] at hout
    cases hout
  | voteAnswered hmain _ =>
    have hfollower := h.follower hdegraded (by rw [hmain]; nofun) (by rw [hmain]; nofun)
    refine h.perform_inert (f := Prod.fst) (Q := fun _ => True) hdegraded ?_ (fun _ _ => rfl) ?_
      (fun _ _ _ => ⟨rfl, rfl, rfl⟩) hlost
    · refine (standing_handleVoteResponse _ _ _).mono (fun _ h => h) ?_
      rintro r _ (⟨hchange, _⟩ | ⟨hwins, _⟩)
      · exact ⟨hchange, trivial⟩
      · exact absurd (hfollower.symm.trans hwins.candidate) nofun
    · rintro ⟨node, _ | count⟩ disk <;> exact Or.inr rfl
  | visit hmain _ =>
    refine h.perform_inert (f := Prod.fst) hdegraded
      ((standing_installSnapshotRequestForPeer _).mono (fun _ h => h) fun _ _ hr => ⟨hr.1.change, hr.2⟩)
      ?_ ?_ ?_ hlost
    · rintro ⟨node, _ | _ | req⟩ disk <;> rfl
    · rintro ⟨node, _ | _ | req⟩ disk <;> exact Or.inr rfl
    · rintro ⟨node, answer⟩ disk hnone
      cases hnone hrole
      exact ⟨rfl, rfl, rfl⟩
  | appendTurn hmain =>
    refine h.perform_inert (f := Prod.fst) hdegraded
      ((standing_appendEntriesRequestForPeer _).mono (fun _ h => h) fun _ _ hr => ⟨hr.1.change, hr.2⟩)
      ?_ ?_ ?_ hlost
    · rintro ⟨node, _ | _ | req⟩ disk <;> rfl
    · rintro ⟨node, _ | _ | req⟩ disk <;> exact Or.inr rfl
    · rintro ⟨node, answer⟩ disk hnone
      cases hnone hrole
      exact ⟨rfl, rfl, rfl⟩
  | appendAnswered =>
    exact h.perform_inert (f := Prod.fst) hdegraded (standing_handleAppendEntriesResponse _ _ _)
      (fun _ _ => rfl) (fun _ _ => Or.inl rfl) (fun _ _ _ => ⟨rfl, rfl, rfl⟩) hlost
  | installAnswered =>
    exact h.perform_inert (f := id) hdegraded (standing_handleInstallSnapshotResponse _ _ _)
      (fun _ _ => rfl) (fun _ _ => Or.inl rfl) (fun _ _ _ => ⟨rfl, rfl, rfl⟩) hlost
  | receive req =>
    rw [receive_of_degraded req hdegraded]
    exact inert_of_quiet rfl rfl rfl (Or.inl rfl) (Int.le_refl _)
  | startCommand cmd =>
    exact h.perform_inert (f := Prod.fst) hdegraded (standing_startCommand cmd) (fun _ _ => rfl)
      (fun _ _ => Or.inl rfl) (fun _ _ hnone => ⟨rfl, rfl, hnone hdegraded⟩) hlost
  | takeSnapshot index data =>
    refine h.perform_inert (f := Prod.fst) (Q := fun _ => True) hdegraded
      ((standing_takeSnapshot index data).mono (fun _ h => h) fun _ _ hr => ⟨hr.change, trivial⟩)
      ?_ ?_ ?_ hlost
    · rintro ⟨node, _ | _⟩ disk <;> rfl
    · rintro ⟨node, _ | _⟩ disk <;> exact Or.inl rfl
    · rintro ⟨node, _ | _⟩ disk _ <;> exact ⟨rfl, rfl, rfl⟩
  | pickEntry =>
    exact h.perform_inert (f := Prod.fst) (Q := fun _ => True) hdegraded
      (standing_nextToApply.mono (fun _ h => h) fun _ _ hr => ⟨hr.change, trivial⟩)
      (fun _ _ => rfl) (fun _ _ => Or.inl rfl) (fun _ _ _ => ⟨rfl, rfl, rfl⟩) hlost
  | signal =>
    refine inert_of_quiet rfl rfl rfl (Or.inl rfl) ?_
    simp only [NodeProcess.stepSignal]
    split <;> split <;> exact Int.le_refl _
  | electionTimeout | pollTimeout | startRoundNotified | startRound =>
    exact inert_of_quiet rfl rfl rfl (Or.inr rfl) (Int.le_refl _)
  | electionReset | callFailed | finish | notify | wakeApply | drain | sendSnapshot | recordSnapshot | sendEntry =>
    exact inert_of_quiet rfl rfl rfl (Or.inl rfl) (Int.le_refl _)

end Server.Sidelined

/-- Where failures retire the node, a degraded node is sidelined. -/
theorem sidelined_of_reachable {sv : Server} (run : ServerReachable RetiringFailures sv) :
    sv.Sidelined := by
  refine run.invariant ?_ ?_
  · rintro sv ⟨id, peers, disk, rfl⟩
    exact .boot id peers disk
  · rintro sv sv' _ h ⟨drive, hfailures, hdrive⟩
    obtain ⟨result, hstep, rfl⟩ := Option.map_eq_some_iff.mp hdrive
    exact h.step (.of_step hstep) hfailures

/-- **A degraded node takes no further part.** In runs whose storage failures retire the node, and until
the process is restarted or lost, no step of a degraded node builds a request, grants a vote, accepts a
command or commits, whatever arrives and whatever becomes of its storage calls. -/
theorem degraded_node_is_inert {sv : Server} (run : ServerReachable RetiringFailures sv)
    (hdegraded : sv.node.degraded = true) {drive : Drive} {result : Server × Effects}
    (hstep : sv.step drive.fresh drive.fates drive.input = some result) (hsame : drive.input ≠ .restart)
    (hlost : result.2.lost = none) : sv.Inert result :=
  (sidelined_of_reachable run).inert hdegraded (.of_step hstep) hsame hlost

/-- The drives that make a node of three a candidate. -/
def candidacy : List Drive :=
  [.of .dispatch, .of .electionTimeout, .of .dispatch]

/-- A candidate that cannot save its new term is degraded, and answers no vote request any more. -/
theorem degraded_node_is_inert_after_failed_election :
    ∃ sv result, ServerReachable RetiringFailures sv ∧ sv.node.degraded = true ∧
      sv.step 0 [] (.receive (.vote { term := 9, candidateID := "b", lastLogIndex := 9, lastLogTerm := 9 })) =
        some result ∧ sv.Inert result := by
  have hrun : (execute RetiringFailures Server.drive (Server.boot "a" ["a", "b", "c"] .empty)
      (candidacy ++ [{ fresh := 0, fates := [.fails], input := .startElection }])).map
      (fun sv => sv.node.degraded) = some true := by
    decide +kernel
  obtain ⟨sv, hsv, hdegraded⟩ := exists_serverReachable_of_execute hrun
  let drive : Drive :=
    .of (.receive (.vote { term := 9, candidateID := "b", lastLogIndex := 9, lastLogTerm := 9 }))
  have hstep : sv.step drive.fresh drive.fates drive.input = some (sv.carryOut [] (sv.planReceive _)) := rfl
  refine ⟨sv, _, hsv, hdegraded, hstep, degraded_node_is_inert hsv hdegraded hstep nofun ?_⟩
  rw [receive_of_degraded _ hdegraded]

/-- The drives of a candidate that wins its election, takes a command, has it stored by `b`, cannot save
the new commit index and turns to `c`. -/
def failedCommit : List Drive :=
  candidacy ++
    [.of .startElection, .of .openPoll, .of (.voteAnswered 0 { term := 1, voteGranted := true }),
      .of .dispatch, .of (.startCommand [7]), .of (.startRound false), .of (.visit "b"),
      { fresh := 2, fates := [], input := .appendTurn },
      {
        fresh := 3
        fates := [.fails]
        input := .appendAnswered 2 { term := 1, success := true, conflictTerm := 0, conflictIndex := 0 } },
      .of (.visit "c")]

/-- The entries that leader `a` of term 1 sends to a node that has nothing. -/
def firstEntries (leaderCommit : Int) : Request :=
  .append {
    term := 1
    leaderID := "a"
    prevLogIndex := 0
    prevLogTerm := 0
    entries := [commandEntry 7]
    leaderCommit }

/-- A leader that could not save its commit index is degraded, and still sends entries to `c`. -/
theorem degraded_leader_replicates :
    ∃ sv, ServerReachable (fun _ _ => True) sv ∧ sv.node.degraded = true ∧ sv.node.role = .leader ∧
      (sv.step 3 [] .appendTurn).map (fun result => (result.2.lost, result.2.calls)) =
        some (none, [("c", firstEntries 1)]) := by
  have hrun : (execute (fun _ _ => True) Server.drive (Server.boot "a" ["a", "b", "c"] .empty)
      failedCommit).map (fun sv => (sv.node.degraded, sv.node.role,
        decide ((sv.step 3 [] .appendTurn).map (fun result => (result.2.lost, result.2.calls)) =
          some (none, [("c", firstEntries 1)])))) = some (true, .leader, true) := by
    decide +kernel
  obtain ⟨sv, hsv, hfacts⟩ := exists_serverReachable_of_execute hrun
  simp only [Prod.mk.injEq, decide_eq_true_eq] at hfacts
  exact ⟨sv, hsv, hfacts⟩

end ConsensusLab.Raft
