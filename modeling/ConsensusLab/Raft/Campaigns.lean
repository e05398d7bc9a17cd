import ConsensusLab.Raft.Continuations
import Mathlib.Data.Finset.Max
import Mathlib.Data.Finset.Order
import Mathlib.Data.Prod.Lex

/-!
# A majority can elect a leader

Of a majority of the members, one whose log reaches as far as the others' can become
their leader from every state: it is started again, lets its elections time out until it
is in a later term than all the others, and then asks for their votes.
-/

namespace ConsensusLab.Raft

open Foundation Relation

variable {m : Membership} {side : Finset String} {c c' : Cluster} {id : String} {sv : Server}

/-- How far the log of a node reaches, in the order in which voters compare logs. -/
def Node.logEnd (n : Node) : Int ×ₗ Int :=
  toLex (n.lastLogTerm, n.lastLogIndex)

/-- Voters accept candidates whose logs reach at least as far as their own. -/
theorem Node.upToDate_voteRequest {n candidate : Node} (h : n.logEnd ≤ candidate.logEnd) :
    n.upToDate candidate.voteRequest := by
  rcases Prod.Lex.toLex_le_toLex.mp h with hterm | ⟨hterm, hindex⟩
  · exact Or.inl hterm
  · exact Or.inr ⟨hterm.symm, hindex⟩

/-- A restart does not shorten the log. -/
theorem logEnd_newNode {a : RaftLog} {n : Node} {d : PersistentState} (h : LogMirror a id n d) (self : String)
    (peers : List String) : (newNode self peers d).logEnd = n.logEnd := by
  obtain ⟨hindex, hterm, hlog⟩ := h.disk.newNode_window h.logs self peers
  simp only [Node.logEnd, Node.lastLogTerm, Node.lastLogIndex, hindex, hterm, hlog]

/-- A candidate that is about to start an election, with a log that reaches a given end and no calls under way. -/
structure Server.Campaigning (sv : Server) (reach : Int ×ₗ Int) : Prop where
  main : sv.main = .starting
  role : sv.node.role = .candidate
  healthy : sv.node.degraded = false
  quiet : sv.sends = []
  idle : ∀ p, sv.node.replicateInFlight p = false
  logEnd : sv.node.logEnd = reach

/-- The poll that a candidate opens. -/
def Node.poll (n : Node) (fresh : ℕ) : Poll where
  request := n.voteRequest
  votes := 1
  majority := n.quorumSize
  awaiting := List.range' fresh n.peers.length

section Candidacy

variable (hid : id ∈ m.ids) (hside : id ∈ side)
include hid hside

/-- A member can be started again and become a candidate. -/
theorem exists_campaigning (run : ClusterReachable m Undisturbed c) :
    ∃ c', SoloPath m side id c c' ∧ (c'.servers id).Campaigning (c.servers id).node.logEnd := by
  obtain ⟨a, _, hrefines⟩ := logRefines_of_undisturbed run
  obtain ⟨booted, hbooted⟩ : ∃ booted, booted = (c.servers id).reboot (c.servers id).disk := ⟨_, rfl⟩
  have hmain : booted.main = .idle := by rw [hbooted]; rfl
  have hhealthy : booted.node.degraded = false := by rw [hbooted]; exact newNode_degraded ..
  have hrole : booted.node.role = .follower := by rw [hbooted]; exact newNode_role ..
  obtain ⟨c₁, h₁⟩ : ∃ c₁, Alone m side id c booted [] c₁ :=
    (Alone.refl m side id c).act hid hside .restart {} rfl rfl (by rw [hbooted]; rfl) rfl
  obtain ⟨c₂, h₂⟩ : ∃ c₂, Alone m side id c { booted with main := .following } [] c₂ := by
    refine h₁.act hid hside .dispatch {} rfl rfl ?_ rfl
    simp only [Server.step, NodeProcess.plan, hmain, Option.map_some, Server.carryOut, Server.onDisk,
      NodeProcess.dispatch, hhealthy, hrole, Bool.false_eq_true, if_false]
  obtain ⟨c₃, h₃⟩ : ∃ c₃, Alone m side id c
      { booted with node := booted.node.convertToCandidate, main := .idle } [] c₃ :=
    h₂.act hid hside .electionTimeout {} rfl rfl rfl rfl
  obtain ⟨c₄, h₄⟩ : ∃ c₄, Alone m side id c
      { booted with node := booted.node.convertToCandidate, main := .starting } [] c₄ := by
    refine h₃.act hid hside .dispatch {} rfl rfl ?_ rfl
    simp only [Server.step, NodeProcess.plan, Option.map_some, Server.carryOut, Server.onDisk, NodeProcess.dispatch,
      Node.convertToCandidate, hhealthy, Bool.false_eq_true, if_false]
  refine ⟨c₄, h₄.path, ?_⟩
  rw [h₄.server]
  refine ⟨rfl, rfl, hhealthy, by rw [hbooted]; rfl, fun p => ?_, ?_⟩
  · rw [hbooted]
    simp only [Server.reboot, Server.boot, NodeProcess.boot, newNode, Node.convertToCandidate]
    cases (c.servers id).disk.snapshot <;> rfl
  · rw [hbooted]
    exact logEnd_newNode (hrefines.servers id hid).log _ _

/-- A candidate can open a poll in the next term. -/
theorem exists_polling {reach : Int ×ₗ Int} (h : (c.servers id).Campaigning reach) :
    ∃ c' d, Alone m side id c
      { (c.servers id) with
        node := (c.servers id).node.standing
        main := .polling ((c.servers id).node.standing.poll c.calls.length)
        disk := d }
      ((c.servers id).node.peers.map fun p =>
        { caller := id, callee := p, request := .vote (c.servers id).node.standing.voteRequest }) c' := by
  have hensures : (c.servers id).node.startElection.Ensures False (fun _ => False)
      (fun r _ => r = ((c.servers id).node.standing, some (c.servers id).node.standing.voteRequest))
      (c.servers id).disk := Node.startElection_rule False.elim rfl
  obtain ⟨_, d, hvalue, rfl⟩ := hensures.value
  obtain ⟨c₁, h₁⟩ : ∃ c₁, Alone m side id c
      { (c.servers id) with
        node := (c.servers id).node.standing
        main := .opening (c.servers id).node.standing.voteRequest
        disk := d } [] c₁ := by
    refine (Alone.refl m side id c).act hid hside .startElection {} rfl rfl ?_ rfl
    simp only [Server.step, NodeProcess.plan, h.main, Option.map_some, Server.carryOut,
      NodeProcess.planStartElection]
    exact congrArg some (Server.perform_of_value hvalue rfl)
  obtain ⟨c₂, h₂⟩ := h₁.act hid hside .openPoll _ rfl rfl rfl rfl
  refine ⟨c₂, d, h₂.path, h₂.server, ?_, h₂.replies⟩
  rw [h₂.calls]
  simp only [List.nil_append, NodeProcess.stepOpenPoll, List.map_map]
  rfl

/-- A candidate can time out and is then a candidate of the next term. -/
theorem exists_retried {reach : Int ×ₗ Int} (h : (c.servers id).Campaigning reach) :
    ∃ c', SoloPath m side id c c' ∧ (c'.servers id).Campaigning reach ∧
      (c'.servers id).node.currentTerm = (c.servers id).node.currentTerm + 1 := by
  obtain ⟨c₁, d, h₁⟩ := exists_polling hid hside h
  obtain ⟨c₂, h₂⟩ := h₁.act hid hside .pollTimeout {} rfl rfl rfl (List.append_nil _).symm
  obtain ⟨c₃, h₃⟩ : ∃ c₃, Alone m side id c
      { (c.servers id) with node := (c.servers id).node.standing, main := .starting, disk := d } _ c₃ := by
    refine h₂.act hid hside .dispatch {} rfl rfl ?_ rfl
    simp only [Server.step, NodeProcess.plan, Option.map_some, Server.carryOut, Server.onDisk, NodeProcess.dispatch,
      Node.standing, h.healthy, h.role, Bool.false_eq_true, if_false]
  refine ⟨c₃, h₃.path, ?_, ?_⟩
  · rw [h₃.server]
    exact ⟨rfl, h.role, h.healthy, h.quiet, h.idle, h.logEnd⟩
  · rw [h₃.server]
    rfl

/-- A candidate can reach every later term. -/
theorem exists_laterTerm {reach : Int ×ₗ Int} (h : (c.servers id).Campaigning reach) (k : ℕ) :
    ∃ c', SoloPath m side id c c' ∧ (c'.servers id).Campaigning reach ∧
      (c'.servers id).node.currentTerm = (c.servers id).node.currentTerm + k := by
  induction k with
  | zero => exact ⟨c, .refl c, h, (Int.add_zero _).symm⟩
  | succ k ih =>
    obtain ⟨c₁, hpath, h₁, hterm⟩ := ih
    obtain ⟨c₂, hpath', h₂, hterm'⟩ := exists_retried hid hside h₁
    refine ⟨c₂, hpath.trans hpath', h₂, ?_⟩
    rw [hterm', hterm]
    omega

end Candidacy

/-- A voter in an earlier term grants its vote to a candidate whose log reaches far enough. -/
theorem Node.ensures_grant {n : Node} {d : PersistentState} {req : RequestVoteRequest} (hhealthy : n.degraded = false)
    (hterm : n.currentTerm < req.term) (hlog : n.upToDate req) :
    (n.handleRequestVote req).Ensures False (fun _ => False)
      (fun r _ => r.2 = .ok { term := req.term, voteGranted := true } ∧ r.1.currentTerm = req.term) d := by
  have hopen : ({ n.adoptTerm req.term with role := .follower } : Node).upToDate req := hlog
  refine Node.handleRequestVote_rule (fun hdegraded => ?_) (fun _ hstale => by omega) (fun _ _ => ⟨False.elim, ?_⟩)
    fun _ hsame => by omega
  · rw [hhealthy] at hdegraded
    cases hdegraded
  · simp only [Node.castVote, StorageProgram.ensures_ite, StorageProgram.ensures_bind]
    exact ⟨fun _ => ⟨False.elim, rfl, rfl⟩, fun hdeny => absurd ⟨Or.inl rfl, hopen⟩ hdeny⟩

section Voting

/-- The vote of a peer has been asked for in a poll, and the response has not been read. -/
structure Poll.Asks (poll : Poll) (calls : List Call) (id p : String) (handle : ℕ) : Prop where
  awaited : handle ∈ poll.awaiting
  asked : calls[handle]? = some { caller := id, callee := p, request := .vote poll.request }

/-- A new poll asks all peers. -/
theorem exists_asks {n : Node} {p : String} (hp : p ∈ n.peers) (calls : List Call) (id : String) :
    ∃ handle, (n.poll calls.length).Asks
      (calls ++ n.peers.map fun p => { caller := id, callee := p, request := .vote n.voteRequest }) id p handle := by
  obtain ⟨j, hj, rfl⟩ := List.getElem_of_mem hp
  refine ⟨calls.length + j, ?_, ?_⟩
  · exact List.mem_range'_1.mpr ⟨Nat.le_add_right _ _, by omega⟩
  · rw [List.getElem?_append_right (Nat.le_add_right _ _), Nat.add_sub_cancel_left, List.getElem?_map,
      List.getElem?_eq_getElem hj]
    rfl

/-- The peers can grant their votes. -/
theorem exists_voted {poll : Poll} {voters : List String} (hside : id ∈ side) (hnodup : voters.Nodup)
    (hvoters : ∀ p ∈ voters, p ∈ side ∧ (∃ handle, poll.Asks c.calls id p handle) ∧
      (c.servers p).node.degraded = false ∧ (c.servers p).node.currentTerm < poll.request.term ∧
      (c.servers p).node.upToDate poll.request) :
    ∃ c', Continues m side c c' ∧ c'.calls = c.calls ∧ (∀ q, q ∉ voters → c'.servers q = c.servers q) ∧
      ∀ p ∈ voters, (c'.servers p).node.currentTerm = poll.request.term ∧
        ∃ handle, poll.Asks c.calls id p handle ∧
          (handle, Reply.vote { term := poll.request.term, voteGranted := true }) ∈ c'.replies := by
  induction voters with
  | nil => exact ⟨c, .refl, rfl, fun _ _ => rfl, fun p hp => absurd hp List.not_mem_nil⟩
  | cons p rest ih =>
    obtain ⟨hnew, hnodup⟩ := List.nodup_cons.mp hnodup
    obtain ⟨c₁, hpath, hcalls, hothers, hgranted⟩ := ih hnodup fun q hq => hvoters q (List.mem_cons_of_mem p hq)
    obtain ⟨hp, ⟨handle, hasks⟩, hhealthy, hterm, hlog⟩ := hvoters p List.mem_cons_self
    have hensures := @Node.ensures_grant _ (c.servers p).disk _ hhealthy hterm hlog
    obtain ⟨⟨node, result⟩, d, hvalue, hresult, hnode⟩ := hensures.value
    obtain rfl : result = .ok { term := poll.request.term, voteGranted := true } := hresult
    have hstep : (c₁.servers p).step c₁.calls.length [] (.receive (.vote poll.request)) =
        some ({ (c.servers p) with node := node, disk := d },
          { reply := some (.vote { term := poll.request.term, voteGranted := true }) }) := by
      rw [hothers p hnew]
      exact congrArg some (Server.perform_of_value hvalue rfl)
    have hcall : c₁.calls[handle]? = some { caller := id, callee := p, request := .vote poll.request } := by
      rw [hcalls]
      exact hasks.asked
    obtain ⟨c₂, hpath₂, hserver, hcalls₂, hreply⟩ := exists_delivered hcall hside hp hstep
    have hgrows := Continues.grows hpath₂.path
    refine ⟨c₂, hpath.trans hpath₂.path, hcalls₂.trans hcalls, fun q hq => ?_, fun q hq => ?_⟩
    · rw [List.mem_cons, not_or] at hq
      rw [hpath₂.others q hq.1, hothers q hq.2]
    · rcases List.mem_cons.mp hq with rfl | hrest
      · refine ⟨?_, handle, hasks, hreply⟩
        rw [hserver]
        exact hnode
      · obtain ⟨hvoted, handle', hasks', hreply'⟩ := hgranted q hrest
        have hne : q ≠ p := fun heq => hnew (heq ▸ hrest)
        refine ⟨?_, handle', hasks', hgrows.replies hreply'⟩
        rw [hpath₂.others q hne]
        exact hvoted

/-- A candidate wins when it reads the votes of a majority. -/
theorem exists_elected {poll : Poll} {voters : List String} (hside : id ∈ side) (hsome : voters ≠ [])
    (hnodup : voters.Nodup) (hmain : (c.servers id).main = .polling poll)
    (hrole : (c.servers id).node.role = .candidate) (hmajority : poll.majority ≤ poll.votes + voters.length)
    (hvoters : ∀ p ∈ voters, p ∈ side ∧ ∃ handle, poll.Asks c.calls id p handle ∧
      (handle, Reply.vote { term := (c.servers id).node.currentTerm, voteGranted := true }) ∈ c.replies) :
    ∃ c', Alone m side id c { (c.servers id) with node := (c.servers id).node.becomeLeader, main := .idle } [] c' := by
  induction voters generalizing c poll with
  | nil => exact absurd rfl hsome
  | cons p rest ih =>
    obtain ⟨hnew, hnodup⟩ := List.nodup_cons.mp hnodup
    obtain ⟨hp, handle, hasks, hreply⟩ := hvoters p List.mem_cons_self
    have hawaited := hasks.awaited
    by_cases hwon : poll.majority ≤ poll.votes + 1
    · refine exists_answered hasks.asked hside hp hreply ?_
      have hvote : (c.servers id).node.handleVoteResponse poll.votes poll.majority
          { term := (c.servers id).node.currentTerm, voteGranted := true } =
          pure ((c.servers id).node.becomeLeader, none) := by
        simp [Node.handleVoteResponse, hrole, hwon]
      simp only [Reply.input, Server.step, NodeProcess.plan, hmain, hawaited, if_true, Option.map_some, Server.carryOut,
        NodeProcess.planVoteAnswered, hvote]
      rfl
    · obtain ⟨c₁, h₁⟩ : ∃ c₁, Alone m side id c
          { (c.servers id) with
            main := .polling { poll with votes := poll.votes + 1, awaiting := poll.awaiting.erase handle } } [] c₁ := by
        refine exists_answered hasks.asked hside hp hreply ?_
        have hvote : (c.servers id).node.handleVoteResponse poll.votes poll.majority
            { term := (c.servers id).node.currentTerm, voteGranted := true } =
            pure ((c.servers id).node, some (poll.votes + 1)) := by
          simp [Node.handleVoteResponse, hrole, hwon]
        simp only [Reply.input, Server.step, NodeProcess.plan, hmain, hawaited, if_true, Option.map_some, Server.carryOut,
        NodeProcess.planVoteAnswered, hvote]
        rfl
      have hserver := h₁.server
      have hcalls : c₁.calls = c.calls := h₁.calls.trans (List.append_nil _)
      have hmore : rest ≠ [] := by
        rintro rfl
        exact hwon hmajority
      obtain ⟨c₂, h₂⟩ := ih hmore hnodup (by rw [hserver]) (by rw [hserver]; exact hrole)
        (by simp only [List.length_cons] at hmajority ⊢; omega) fun q hq => by
          obtain ⟨hq', handle', hasks', hreply'⟩ := hvoters q (List.mem_cons_of_mem p hq)
          have hother : handle' ≠ handle := by
            rintro rfl
            have hsame := hasks.asked.symm.trans hasks'.asked
            cases hsame
            exact hnew hq
          refine ⟨hq', handle', ⟨(List.mem_erase_of_ne hother).mpr hasks'.awaited, ?_⟩, ?_⟩
          · rw [hcalls]
            exact hasks'.asked
          · rw [h₁.replies, hserver]
            exact hreply'
      refine ⟨c₂, h₁.path.trans h₂.path, ?_, ?_, h₂.replies.trans h₁.replies⟩
      · rw [h₂.server, hserver]
      · rw [h₂.calls, hcalls]

end Voting

/-- One of the members on a side has a log that reaches as far as those of the others. -/
theorem exists_furthest_log (c : Cluster) (hsome : (m.ids.filter (· ∈ side)) ≠ []) :
    ∃ id ∈ m.ids, id ∈ side ∧ ∀ p ∈ m.ids, p ∈ side → (c.servers p).node.logEnd ≤ (c.servers id).node.logEnd := by
  have hne : (m.ids.filter (· ∈ side)).toFinset.Nonempty := by
    rw [List.toFinset_nonempty_iff]
    exact hsome
  obtain ⟨id, hid, hmax⟩ := Finset.exists_max_image _ (fun p => (c.servers p).node.logEnd) hne
  simp only [List.mem_toFinset, List.mem_filter, decide_eq_true_eq, and_imp] at hid hmax
  exact ⟨id, hid.1, hid.2, hmax⟩

/-- A candidate that collects votes, has asked all of its peers and has no other calls under way. -/
structure Server.Canvassing (sv : Server) (calls : List Call) (id : String) (poll : Poll) : Prop where
  main : sv.main = .polling poll
  role : sv.node.role = .candidate
  healthy : sv.node.degraded = false
  quiet : sv.sends = []
  idle : ∀ p, sv.node.replicateInFlight p = false
  request : poll.request = sv.node.voteRequest
  votes : poll.votes = 1
  majority : poll.majority = sv.node.quorumSize
  asks : ∀ p ∈ sv.node.peers, ∃ handle, poll.Asks calls id p handle

/-- A member can ask for votes in a term beyond every bound, with the log that it has. -/
theorem exists_canvassing (run : ClusterReachable m Undisturbed c) (hid : id ∈ m.ids) (hside : id ∈ side)
    (bound : Int) :
    ∃ c' poll, SoloPath m side id c c' ∧ (c'.servers id).Canvassing c'.calls id poll ∧
      (c'.servers id).node.logEnd = (c.servers id).node.logEnd ∧ bound < (c'.servers id).node.currentTerm := by
  obtain ⟨c₁, hpath₁, h₁⟩ := exists_campaigning hid hside run
  obtain ⟨c₂, hpath₂, h₂, hterm⟩ := exists_laterTerm hid hside h₁ (bound - (c₁.servers id).node.currentTerm).toNat
  obtain ⟨c₃, d, h₃⟩ := exists_polling hid hside h₂
  refine ⟨c₃, (c₂.servers id).node.standing.poll c₂.calls.length, (hpath₁.trans hpath₂).trans h₃.path, ?_, ?_, ?_⟩
  · rw [h₃.server, h₃.calls]
    exact ⟨rfl, h₂.role, h₂.healthy, h₂.quiet, h₂.idle, rfl, rfl, rfl, fun p hp => exists_asks hp c₂.calls id⟩
  · rw [h₃.server]
    exact h₂.logEnd
  · rw [h₃.server]
    change bound < (c₂.servers id).node.currentTerm + 1
    omega

/-- A candidate ahead of all the others on its side wins with their votes. -/
theorem exists_office {poll : Poll} {voters : List String} (hid : id ∈ m.ids) (hside : id ∈ side)
    (hcanvassing : (c.servers id).Canvassing c.calls id poll) (hsome : voters ≠ []) (hnodup : voters.Nodup)
    (hmajority : (c.servers id).node.quorumSize ≤ 1 + voters.length)
    (hvoters : ∀ p ∈ voters, p ∈ side ∧ p ≠ id ∧ p ∈ (c.servers id).node.peers ∧
      (c.servers p).node.degraded = false ∧ (c.servers p).node.currentTerm < (c.servers id).node.currentTerm ∧
      (c.servers p).node.logEnd ≤ (c.servers id).node.logEnd) :
    ∃ c', Continues m side c c' ∧ (c'.servers id).Presiding [] ∧
      (c'.servers id).node.currentTerm = (c.servers id).node.currentTerm ∧
      ∀ p ∈ voters, (c'.servers p).node.currentTerm = (c.servers id).node.currentTerm := by
  have hrequest := hcanvassing.request
  have hterm : poll.request.term = (c.servers id).node.currentTerm := by rw [hrequest]; rfl
  obtain ⟨c₁, hpath₁, hcalls₁, hothers₁, hvoted⟩ : ∃ c₁, Continues m side c c₁ ∧ c₁.calls = c.calls ∧
      (∀ q, q ∉ voters → c₁.servers q = c.servers q) ∧
      ∀ p ∈ voters, (c₁.servers p).node.currentTerm = poll.request.term ∧
        ∃ handle, poll.Asks c.calls id p handle ∧
          (handle, Reply.vote { term := poll.request.term, voteGranted := true }) ∈ c₁.replies := by
    refine exists_voted hside hnodup fun p hp => ?_
    obtain ⟨hpside, _, hpeer, hhealthy, hearlier, hlog⟩ := hvoters p hp
    refine ⟨hpside, hcanvassing.asks p hpeer, hhealthy, hterm ▸ hearlier, ?_⟩
    rw [hrequest]
    exact Node.upToDate_voteRequest hlog
  have hserver₁ : c₁.servers id = c.servers id := hothers₁ id fun hp => (hvoters id hp).2.1 rfl
  obtain ⟨c₂, h₂⟩ : ∃ c₂, Alone m side id c₁
      { (c₁.servers id) with node := (c₁.servers id).node.becomeLeader, main := .idle } [] c₂ := by
    refine exists_elected hside hsome hnodup (hserver₁ ▸ hcanvassing.main) (hserver₁ ▸ hcanvassing.role) ?_ fun p hp => ?_
    · rw [hcanvassing.majority, hcanvassing.votes]
      exact hmajority
    · obtain ⟨_, handle, hasks, hreply⟩ := hvoted p hp
      rw [hcalls₁, hserver₁, ← hterm]
      exact ⟨(hvoters p hp).1, handle, hasks, hreply⟩
  rw [hserver₁] at h₂
  obtain ⟨c₃, h₃⟩ : ∃ c₃, Alone m side id c₁
      { (c.servers id) with node := (c.servers id).node.becomeLeader, main := .leading [] } [] c₃ := by
    refine h₂.act hid hside .dispatch {} rfl rfl ?_ rfl
    simp only [Server.step, NodeProcess.plan, Option.map_some, Server.carryOut, Server.onDisk, NodeProcess.dispatch,
      Node.becomeLeader, hcanvassing.healthy, Bool.false_eq_true, if_false]
  refine ⟨c₃, hpath₁.trans h₃.path.path, ?_, ?_, fun p hp => ?_⟩
  · rw [h₃.server]
    exact ⟨rfl, rfl, hcanvassing.quiet, hcanvassing.idle⟩
  · rw [h₃.server]
    rfl
  · rw [h₃.path.others p (hvoters p hp).2.1, (hvoted p hp).1, hterm]

/-- **A majority can elect a leader.** From every state that undisturbed runs reach, and for every majority of two or
more members, these alone can bring one of them into office in a term that all of them are then in and none of them
was in before. -/
theorem exists_leader (run : ClusterReachable m Undisturbed c) (hmembers : 1 < m.ids.length)
    (hmajority : m.ids.length / 2 < (m.ids.filter (· ∈ side)).length) :
    ∃ id ∈ m.ids, id ∈ side ∧ ∃ c', Continues m side c c' ∧ (c'.servers id).Presiding [] ∧
      ∀ p ∈ m.ids, p ∈ side → (c'.servers p).node.currentTerm = (c'.servers id).node.currentTerm ∧
        (c.servers p).node.currentTerm < (c'.servers id).node.currentTerm := by
  obtain ⟨id, hid, hside, hfurthest⟩ := exists_furthest_log c (List.ne_nil_of_length_pos (Nat.zero_lt_of_lt hmajority))
  obtain ⟨a, _, hrefines⟩ := logRefines_of_undisturbed run
  obtain ⟨bound, hbound⟩ := (m.ids.toFinset.image fun p => (c.servers p).node.currentTerm).exists_le
  have hbelow : ∀ p ∈ m.ids, (c.servers p).node.currentTerm ≤ bound := fun p hp =>
    hbound _ (Finset.mem_image_of_mem _ (List.mem_toFinset.mpr hp))
  obtain ⟨c₁, poll, hpath₁, hcanvassing, hlog, hterm⟩ := exists_canvassing run hid hside bound
  have hplaced := ((wired_of_reachable (Continues.reachable hpath₁.path run)).servers id hid).placed
  have hlength : ((normalizePeers id m.ids).filter (· ∈ side)).length + 1 = (m.ids.filter (· ∈ side)).length :=
    Membership.length_peers_filter hid (decide_eq_true hside)
  have hvoter : ∀ p, p ∈ (normalizePeers id m.ids).filter (· ∈ side) ↔ p ∈ m.ids ∧ p ≠ id ∧ p ∈ side := by
    intro p
    rw [List.mem_filter, Membership.mem_peers, decide_eq_true_eq, and_assoc]
  obtain ⟨c₂, hpath₂, hpresides, hsame, hvoted⟩ : ∃ c₂, Continues m side c₁ c₂ ∧ (c₂.servers id).Presiding [] ∧
      (c₂.servers id).node.currentTerm = (c₁.servers id).node.currentTerm ∧
      ∀ p ∈ (normalizePeers id m.ids).filter (· ∈ side),
        (c₂.servers p).node.currentTerm = (c₁.servers id).node.currentTerm := by
    refine exists_office hid hside hcanvassing (List.ne_nil_of_length_pos (by omega)) ((m.peers_nodup id).filter _) ?_
      fun p hp => ?_
    · rw [Node.quorumSize, hplaced.config]
      omega
    · obtain ⟨hmember, hne, hpside⟩ := (hvoter p).mp hp
      rw [hpath₁.others p hne, hplaced.peers, hlog]
      exact ⟨hpside, hne, Membership.mem_peers.mpr ⟨hmember, hne⟩, (hrefines.servers p hmember).log.ballots.healthy,
        Int.lt_of_le_of_lt (hbelow p hmember) hterm, hfurthest p hmember hpside⟩
  refine ⟨id, hid, hside, c₂, hpath₁.path.trans hpath₂, hpresides, fun p hp hpside => ⟨?_, ?_⟩⟩
  · by_cases hne : p = id
    · rw [hne]
    · rw [hvoted p ((hvoter p).mpr ⟨hp, hne, hpside⟩), hsame]
  · rw [hsame]
    exact Int.lt_of_le_of_lt (hbelow p hp) hterm

end ConsensusLab.Raft
