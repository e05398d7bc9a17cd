import ConsensusLab.Raft.Steps

/-!
# When a candidate wins

`runCandidate` counts its own vote, asks its peers, and compares the count with the
majority each time it has read a response. With at least one peer, a candidate whose
responses carry no later term has won exactly if its own vote and the granted ones make
a quorum. Without peers no response is ever read, so the comparison is never made and
the own vote, which is a quorum then, does not win.
-/

namespace ConsensusLab.Raft

open Foundation

/-- Responses, each with the call it answers, are read until `runCandidate` has returned. -/
def Server.collectVotes (sv : Server) (fresh : ℕ) : List (ℕ × RequestVoteResponse) → Server
  | [] => sv
  | (handle, resp) :: rest =>
    match sv.step fresh [] (.voteAnswered handle resp) with
    | some (after, _) => after.collectVotes fresh rest
    | none => sv

/-- `runCandidate` from its start until it has read some responses, with its save succeeding and its
first call named `fresh`. -/
def Server.runCandidate (sv : Server) (fresh : ℕ) (responses : List (ℕ × RequestVoteResponse)) :
    Option Server := do
  let (started, _) ← sv.step fresh [] .startElection
  let (polling, _) ← started.step fresh [] .openPoll
  pure (polling.collectVotes fresh responses)

/-- How many of the responses grant their vote. -/
def grantedVotes (responses : List (ℕ × RequestVoteResponse)) : ℕ :=
  responses.countP fun p => p.2.voteGranted

/-- A candidate about to start an election in the cluster of its id and its peers. -/
structure Server.Stands (sv : Server) : Prop where
  main : sv.main = .starting
  role : sv.node.role = .candidate
  members : sv.node.config.members.Perm (sv.node.id :: sv.node.peers)

/-- Responses to different calls of one election, none of them of a later term. -/
structure ResponsesTo (sv : Server) (fresh : ℕ) (responses : List (ℕ × RequestVoteResponse)) : Prop where
  calls : ∀ p ∈ responses, p.1 ∈ List.range' fresh sv.node.peers.length
  distinct : (responses.map Prod.fst).Nodup
  terms : ∀ p ∈ responses, p.2.term ≤ sv.node.currentTerm + 1

/-- The candidate has become leader exactly if its own vote and the granted ones make a quorum. -/
def WinsByQuorum (sv : Server) (fresh : ℕ) (responses : List (ℕ × RequestVoteResponse)) : Prop :=
  (sv.runCandidate fresh responses).map (·.node.role) = some .leader ↔
    sv.node.quorumSize ≤ 1 + grantedVotes responses

variable {sv : Server} {fresh : ℕ} {responses : List (ℕ × RequestVoteResponse)}

/-- The poll after a response has been read. -/
def Poll.counting (poll : Poll) (handle : ℕ) (resp : RequestVoteResponse) : Poll :=
  { poll with
    votes := poll.votes + if resp.voteGranted then 1 else 0
    awaiting := poll.awaiting.erase handle }

/-- Once `runCandidate` has returned, responses are read no more. -/
theorem Server.collectVotes_idle (hmain : sv.main = .idle) : sv.collectVotes fresh responses = sv := by
  cases responses with
  | nil => rfl
  | cons p rest => simp [Server.collectVotes, Server.step, NodeProcess.plan, hmain]

/-- One response that is not of a later term: the candidate wins, or goes on with the new count. -/
theorem Server.step_voteAnswered (fresh : ℕ) {poll : Poll} {handle : ℕ} {resp : RequestVoteResponse}
    (hmain : sv.main = .polling poll) (hrole : sv.node.role = .candidate)
    (hawaited : handle ∈ poll.awaiting) (hterm : resp.term ≤ sv.node.currentTerm) :
    sv.step fresh [] (.voteAnswered handle resp) =
      if poll.majority ≤ (poll.counting handle resp).votes then
        some ({ sv with node := sv.node.becomeLeader, main := .idle }, {})
      else some ({ sv with main := .polling (poll.counting handle resp) }, {}) := by
  have hvotes : (if resp.voteGranted then poll.votes + 1 else poll.votes) =
      (poll.counting handle resp).votes := by
    simp only [Poll.counting]
    split <;> rfl
  have hvote : sv.node.handleVoteResponse poll.votes poll.majority resp =
      if poll.majority ≤ (poll.counting handle resp).votes then pure (sv.node.becomeLeader, none)
      else pure (sv.node, some (poll.counting handle resp).votes) := by
    simp only [Node.handleVoteResponse, if_neg (Int.not_lt.mpr hterm), hrole, ne_eq, not_true_eq_false,
      if_false, ge_iff_le, hvotes]
  simp only [Server.step, NodeProcess.plan, hmain, hawaited, if_true, Option.map_some, Server.carryOut,
    NodeProcess.planVoteAnswered, Server.perform, hvote]
  by_cases hwon : poll.majority ≤ (poll.counting handle resp).votes
  · simp only [if_pos hwon]
    rfl
  · simp only [if_neg hwon]
    rfl

/-- The responses read decide the election, as long as it has not been decided before. -/
theorem Server.collectVotes_role {poll : Poll} (hmain : sv.main = .polling poll)
    (hrole : sv.node.role = .candidate) (hopen : poll.votes < poll.majority)
    (hcalls : ∀ p ∈ responses, p.1 ∈ poll.awaiting) (hdistinct : (responses.map Prod.fst).Nodup)
    (hterms : ∀ p ∈ responses, p.2.term ≤ sv.node.currentTerm) :
    (sv.collectVotes fresh responses).node.role = .leader ↔
      poll.majority ≤ poll.votes + grantedVotes responses := by
  induction responses generalizing sv poll with
  | nil =>
    simp only [Server.collectVotes, hrole, reduceCtorEq, false_iff, grantedVotes, List.countP_nil]
    omega
  | cons p rest ih =>
    obtain ⟨handle, resp⟩ := p
    have hcount : poll.votes + grantedVotes ((handle, resp) :: rest) =
        (poll.counting handle resp).votes + grantedVotes rest := by
      simp only [grantedVotes, List.countP_cons, Poll.counting]
      omega
    have hstep := Server.step_voteAnswered fresh hmain hrole
      (hcalls _ List.mem_cons_self) (hterms _ List.mem_cons_self)
    rw [Server.collectVotes, hstep, hcount]
    by_cases hwon : poll.majority ≤ (poll.counting handle resp).votes
    · rw [if_pos hwon]
      have hdone : (({ sv with node := sv.node.becomeLeader, main := .idle } : Server).collectVotes fresh
          rest).node.role = .leader := by
        rw [Server.collectVotes_idle rfl]
        rfl
      simp only [hdone, true_iff]
      omega
    · rw [if_neg hwon]
      have hmain' : ({ sv with main := .polling (poll.counting handle resp) } : Server).main =
          .polling (poll.counting handle resp) := rfl
      have hdistinct' := List.nodup_cons.mp hdistinct
      refine ih hmain' hrole (Nat.not_le.mp hwon) ?_ hdistinct'.2 ?_
      · intro q hq
        have hmem : q.1 ∈ rest.map Prod.fst := List.mem_map_of_mem hq
        have hother : q.1 ≠ handle := fun heq => hdistinct'.1 (heq ▸ hmem)
        exact (List.mem_erase_of_ne hother).mpr (hcalls q (List.mem_cons_of_mem _ hq))
      · intro q hq
        exact hterms q (List.mem_cons_of_mem _ hq)

/-- The server after the first two steps of `runCandidate`. -/
def Server.polled (sv : Server) (fresh : ℕ) : Server :=
  { sv with
    node := { sv.node with currentTerm := sv.node.currentTerm + 1, votedFor := sv.node.id }
    disk := { sv.disk with
      hard := Node.hardState { sv.node with currentTerm := sv.node.currentTerm + 1, votedFor := sv.node.id } }
    main := .polling
      { request :=
          { term := sv.node.currentTerm + 1, candidateID := sv.node.id
            lastLogIndex := sv.node.lastLogIndex, lastLogTerm := sv.node.lastLogTerm }
        votes := 1
        majority := sv.node.quorumSize
        awaiting := List.range' fresh sv.node.peers.length } }

/-- A candidate whose save succeeds opens its poll. -/
theorem Server.runCandidate_eq (hmain : sv.main = .starting) :
    sv.runCandidate fresh responses = some ((sv.polled fresh).collectVotes fresh responses) := by
  have hstart : sv.step fresh [] .startElection = some (sv.carryOut [] sv.planStartElection) := by
    simp only [Server.step, NodeProcess.plan, hmain, Option.map_some]
  unfold Server.runCandidate
  rw [hstart]
  rfl

/-- **A candidate wins exactly with a quorum if it has a peer.** Whatever responses it reads, as long as
none is of a later term, having become leader means having a quorum of votes if and only if the
cluster has more than one member. -/
theorem wins_by_quorum_iff (hstands : sv.Stands) (hresponses : ResponsesTo sv fresh responses) :
    WinsByQuorum sv fresh responses ↔ sv.node.peers ≠ [] := by
  have hquorum : sv.node.quorumSize = (sv.node.peers.length + 1) / 2 + 1 := by
    rw [Node.quorumSize, hstands.members.length_eq, List.length_cons]
  unfold WinsByQuorum
  rw [Server.runCandidate_eq hstands.main, Option.map_some, Option.some_inj]
  constructor
  · intro hwins hnone
    have hempty : responses = [] := by
      cases responses with
      | nil => rfl
      | cons p rest =>
        have hcall := hresponses.calls p List.mem_cons_self
        rw [hnone] at hcall
        cases hcall
    subst hempty
    have hleads := hwins.mpr (by rw [hquorum, hnone]; decide)
    have hrole : ((sv.polled fresh).collectVotes fresh []).node.role = sv.node.role := rfl
    rw [hrole, hstands.role] at hleads
    cases hleads
  · intro hpeers
    have hlen := List.length_pos_iff.mpr hpeers
    have hmain : (sv.polled fresh).main = .polling _ := rfl
    refine Server.collectVotes_role hmain hstands.role ?_ hresponses.calls
      hresponses.distinct hresponses.terms
    change 1 < sv.node.quorumSize
    omega

/-- A candidate of the given cluster, about to start its first election. -/
def firstCandidate (members : List String) : Server :=
  let booted := Server.boot "a" members .empty
  { booted with node := booted.node.convertToCandidate, main := .starting }

/-- With two peers, one granted vote and one denied, the candidate has won. -/
theorem wins_by_quorum_iff_of_three :
    WinsByQuorum (firstCandidate ["a", "b", "c"]) 0
      [(1, { term := 0, voteGranted := false }), (0, { term := 1, voteGranted := true })] :=
  (wins_by_quorum_iff ⟨rfl, rfl, by decide⟩ ⟨by decide, by decide, by decide⟩).mpr (by decide)

/-- The only member of a cluster never becomes its leader, although its own vote is a quorum. -/
theorem single_member_never_wins :
    (firstCandidate ["a"]).Stands ∧ ResponsesTo (firstCandidate ["a"]) 0 [] ∧
      (firstCandidate ["a"]).node.quorumSize = 1 ∧
      ((firstCandidate ["a"]).runCandidate 0 []).map (·.node.role) = some .candidate ∧
      ¬WinsByQuorum (firstCandidate ["a"]) 0 [] := by
  have hquorum : (firstCandidate ["a"]).node.quorumSize = 1 := by decide
  have hrole : ((firstCandidate ["a"]).runCandidate 0 []).map (·.node.role) = some .candidate := by
    decide
  refine ⟨⟨rfl, rfl, by decide⟩, ⟨by decide, by decide, by decide⟩, hquorum, hrole, ?_⟩
  intro hwins
  have hleads := hwins.mpr (by rw [hquorum]; decide)
  rw [hrole] at hleads
  cases hleads

end ConsensusLab.Raft
