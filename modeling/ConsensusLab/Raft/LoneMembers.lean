import ConsensusLab.Raft.LeaderAppendOnly
import ConsensusLab.Raft.LogRefinement

/-!
# A cluster of one has no leader

A candidate counts its votes when it reads a response. Its own vote alone is a majority
in a cluster of one, but there is nobody to respond, so the count is never taken: the
member goes from one election to the next, and refuses every command.
-/

namespace ConsensusLab.Raft

open Foundation

variable {m : Membership} {c : Cluster} {id : String} {sv : Server} {fresh : ℕ} {fates : List Fate} {input : Input}
  {result : Server × Effects}

/-- The response that a candidate reads is one it waits for. -/
def Server.Reads (sv : Server) (input : Input) : Prop :=
  ∃ poll handle resp, input = .voteAnswered handle resp ∧ sv.main = .polling poll ∧ handle ∈ poll.awaiting

/-- A performed section after which only a leader leads. -/
theorem Server.leads_of_perform {A : Type} {p : Section A} {next : A → PersistentState → Server × Effects} {f : A → Node}
    (hp : p.Ensures True (fun _ => True) (fun r _ => (f r).role = .leader → sv.node.role = .leader) sv.disk)
    (hnext : ∀ r disk, (next r disk).1.node = f r) :
    (sv.perform fates p next).1.node.role = .leader → sv.node.role = .leader := by
  refine Server.perform_rule (P := fun result => result.1.node.role = .leader → sv.node.role = .leader) hp
    (Or.inl trivial) (fun r disk hkept hleads => ?_) fun _ disk _ hleads => ?_
  · rw [hnext] at hleads
    exact hkept hleads
  · cases (newNode_role sv.node.id sv.node.peers disk).symm.trans hleads

/-- A performed section that wins no election. -/
theorem Server.leads_of_serves {A : Type} {p : Section A} {next : A → PersistentState → Server × Effects} {f : A → Node}
    (hp : p.Ensures True (fun _ => True) (fun r _ => Serves sv.node (f r)) sv.disk)
    (hnext : ∀ r disk, (next r disk).1.node = f r) :
    (sv.perform fates p next).1.node.role = .leader → sv.node.role = .leader :=
  leads_of_perform (hp.mono (fun _ h => h) fun _ _ hserves hleads => (hserves.leader hleads).1) hnext

/-- Whoever leads after a step has led before, or has read a response that it waited for. -/
theorem Server.Move.leads (hmove : sv.Move fresh fates input result) :
    sv.Reads input ∨ (result.1.node.role = .leader → sv.node.role = .leader) := by
  cases hmove with
  | voteAnswered hmain hawaited => exact Or.inl ⟨_, _, _, rfl, hmain, hawaited⟩
  | restart =>
    right
    intro hleads
    cases (newNode_role ..).symm.trans hleads
  | dispatch =>
    right
    simp only [NodeProcess.dispatch]
    split
    · exact id
    · split <;> exact id
  | electionTimeout =>
    right
    intro hleads
    cases hleads
  | electionReset | openPoll | pollTimeout | startRoundNotified | startRound | callFailed | wakeApply | drain
  | sendSnapshot | recordSnapshot | sendEntry => exact Or.inr id
  | startElection =>
    right
    refine leads_of_perform (f := Prod.fst) (Node.startElection_rule (fun _ => ⟨trivial, fun hleads => ?_⟩) id)
      fun _ _ => rfl
    cases hleads
  | visit =>
    exact Or.inr (leads_of_serves (serves_installSnapshotRequestForPeer ..) fun r disk => by
      obtain ⟨node, _ | _ | req⟩ := r <;> rfl)
  | appendTurn =>
    exact Or.inr (leads_of_serves (serves_appendEntriesRequestForPeer ..) fun r disk => by
      obtain ⟨node, _ | _ | req⟩ := r <;> rfl)
  | appendAnswered => exact Or.inr (leads_of_serves (serves_handleAppendEntriesResponse ..) fun _ _ => rfl)
  | installAnswered => exact Or.inr (leads_of_serves (serves_handleInstallSnapshotResponse ..) fun _ _ => rfl)
  | signal =>
    right
    simp only [NodeProcess.stepSignal]
    split <;> split <;> exact id
  | finish | notify => exact Or.inr id
  | receive req =>
    right
    cases req with
    | vote req =>
      exact leads_of_serves (serves_handleRequestVote _ req) fun r disk => by
        obtain ⟨node, _ | resp⟩ := r <;> rfl
    | append req =>
      exact leads_of_serves (serves_handleAppendEntries _ req) fun r disk => by
        obtain ⟨node, _ | resp⟩ := r <;> rfl
    | install req =>
      exact leads_of_serves (serves_handleInstallSnapshot _ req) fun r disk => by
        obtain ⟨node, _ | resp⟩ := r <;> rfl
  | startCommand cmd => exact Or.inr (leads_of_serves (serves_startCommand _ cmd) fun _ _ => rfl)
  | takeSnapshot index data =>
    exact Or.inr (leads_of_serves (serves_takeSnapshot _ index data) fun r disk => by
      obtain ⟨node, _ | _⟩ := r <;> rfl)
  | pickEntry => exact Or.inr (leads_of_serves (serves_nextToApply _) fun _ _ => rfl)

/-- Only a leader accepts commands. -/
theorem Server.Move.accepts (hmove : sv.Move fresh fates input result) (hfollows : sv.node.role ≠ .leader) :
    result.2.accepted = none := by
  have hperform : ∀ {A : Type} {p : Section A} {next : A → PersistentState → Server × Effects},
      (∀ r disk, (next r disk).2.accepted = none) → (sv.perform fates p next).2.accepted = none := by
    intro A p next hnext
    unfold Server.perform
    split <;> first | exact hnext _ _ | rfl
  cases hmove with
  | startCommand cmd =>
    have hrefused : (sv.node.startCommand cmd).Ensures True (fun _ => True) (fun r _ => r.2 = none) sv.disk :=
      Node.startCommand_rule (fun _ => rfl) (fun _ hleads => absurd hleads hfollows) fun _ hleads =>
        absurd hleads hfollows
    exact Server.perform_rule (P := fun result => result.2.accepted = none) hrefused (Or.inl trivial)
      (fun _ _ hnone => hnone) fun _ _ _ => rfl
  | restart | dispatch | electionReset | electionTimeout | openPoll | pollTimeout | startRoundNotified | startRound
  | callFailed | signal | finish | notify | wakeApply | drain | sendSnapshot | recordSnapshot | sendEntry => rfl
  | startElection | voteAnswered | appendAnswered | installAnswered | pickEntry => exact hperform fun _ _ => rfl
  | visit | appendTurn =>
    refine hperform fun r disk => ?_
    obtain ⟨node, _ | _ | req⟩ := r <;> rfl
  | receive req =>
    cases req <;>
    · refine hperform fun r disk => ?_
      obtain ⟨node, _ | resp⟩ := r <;> rfl
  | takeSnapshot =>
    refine hperform fun r disk => ?_
    obtain ⟨node, _ | _⟩ := r <;> rfl

/-- **A cluster of one has no leader.** In no run of a cluster with a single member, whatever becomes of its storage
calls and however often it is started again, does the member come into office or accept a command. -/
theorem lone_member_never_leads {allowed : Cluster → Action → Prop} (run : ClusterReachable m allowed c)
    (hlone : m.ids = [id]) :
    (c.servers id).node.role ≠ .leader ∧ ∀ tr ∈ c.trace, tr.effects.accepted = none := by
  have hkept : Wired m c ∧ (c.servers id).node.role ≠ .leader ∧ ∀ tr ∈ c.trace, tr.effects.accepted = none := by
    refine run.invariant (P := fun c => Wired m c ∧ (c.servers id).node.role ≠ .leader ∧
      ∀ tr ∈ c.trace, tr.effects.accepted = none) ?_ ?_
    · intro c hfirst
      cases hfirst
      refine ⟨wired_first m, fun hleads => ?_, fun tr htr => absurd htr List.not_mem_nil⟩
      cases (newNode_role id m.ids .empty).symm.trans hleads
    · intro c c' _ ⟨hwired, hfollows, hnone⟩ ⟨act, _, hstep⟩
      refine ⟨hwired.step hstep, ?_⟩
      obtain ⟨mover, input, served, after, effects, hsource, hmove, rfl⟩ := Cluster.step_cases hstep
      have hmember := (hwired.source hsource).1
      rw [hlone] at hmember
      obtain rfl : mover = id := List.mem_singleton.mp hmember
      refine ⟨?_, fun tr htr => ?_⟩
      · rw [Cluster.record_servers_self]
        rcases hmove.leads with ⟨poll, handle, resp, _, hmain, hawaited⟩ | hkept
        · -- it would wait for somebody else
          have hpolls := (hwired.servers mover (hlone ▸ List.mem_singleton_self mover)).main
          rw [hmain] at hpolls
          obtain ⟨_, callee, _, _, _, hcallees, _⟩ := hpolls.counted
          obtain ⟨_, hcallee, hother, _⟩ := hcallees handle hawaited
          rw [hlone] at hcallee
          exact absurd (List.mem_singleton.mp hcallee) hother
        · exact fun hleads => hfollows (hkept hleads)
      · rcases List.mem_cons.mp htr with rfl | hold
        · exact hmove.accepts hfollows
        · exact hnone tr hold
  exact hkept.2

/-- The only member. -/
def loneNode : Membership where
  ids := ["a"]
  nodup := by decide
  nonempty := by decide

/-- It stands for election twice and refuses a command in between. -/
theorem lone_member_never_leads_after_elections :
    ∃ c, ClusterReachable loneNode Undisturbed c ∧ (c.servers "a").node.currentTerm = 2 ∧
      (c.servers "a").node.role = .candidate ∧ ((c.servers "a").node.role ≠ .leader ∧
        ∀ tr ∈ c.trace, tr.effects.accepted = none) := by
  have hrun : ((Cluster.first loneNode.ids).run loneNode Undisturbed
      [.act "a" .dispatch [], .act "a" .electionTimeout [], .act "a" .dispatch [], .act "a" .startElection [],
        .act "a" .openPoll [], .act "a" (.startCommand [7]) [], .act "a" .pollTimeout [], .act "a" .dispatch [],
        .act "a" .startElection [], .act "a" .openPoll []]).map
      (fun c => ((c.servers "a").node.currentTerm, (c.servers "a").node.role)) = some (2, .candidate) := by
    decide +kernel
  obtain ⟨c, run, hfacts⟩ := exists_reachable_of_run hrun
  obtain ⟨hterm, hrole⟩ := Prod.mk.inj hfacts
  exact ⟨c, run, hterm, hrole, lone_member_never_leads run rfl⟩

end ConsensusLab.Raft
