import ConsensusLab.Raft.LogEvents
import ConsensusLab.Raft.ReplicationProgress
import ConsensusLab.Raft.SnapshotMatching

/-!
# The requests that a leader builds

A leader decides in one section whether a peer needs its snapshot, and builds the
entries for it in another. The first answers alike when no snapshot is needed and when
another request is under way; if that request ends before the second section, or the
log is compacted in between, the second section slices before the start of the log and
panics. Where neither happens between the two sections, the request is well formed: the
one under way still is, so that no other is built, or there was none that could have
moved the peer's next index.
-/

namespace ConsensusLab.Raft

open Foundation

/-- The request continues from an index that the node represents, with the node's own entries from
there to the end of its log. -/
structure AppendEntriesRequest.FitsLog (req : AppendEntriesRequest) (n : Node) : Prop where
  start : n.snapshotIndex ≤ req.prevLogIndex
  prev : n.represented req.prevLogIndex = some req.prevLogTerm
  entries : ∀ j : ℕ, req.entries[j]? = n.entryAt (req.prevLogIndex + 1 + j)

/-- The peer for which a leader is about to build entries. -/
def MainLoop.turn : MainLoop → Option String
  | appending peer _ => some peer
  | _ => none

/-- Between the two sections for a peer, a goroutine with a request to this peer ends, or the log is compacted. -/
def Server.interrupted (sv : Server) : Input → Bool
  | .finish handle => sv.sends.any fun send => send.handle = handle ∧ sv.main.turn = some send.peer
  | .takeSnapshot index _ => sv.main.turn.isSome && decide (sv.node.snapshotIndex < index)
  | _ => false

/-- The step that an action makes a process take by itself. -/
def Action.stepped : Action → Option (String × Input)
  | .act id input _ => some (id, input)
  | _ => none

/-- An undisturbed step that does not come between the two sections in which a leader turns to a peer. -/
def Uninterrupted (c : Cluster) (act : Action) : Prop :=
  Undisturbed c act ∧ ∀ p ∈ act.stepped, (c.servers p.1).interrupted p.2 = false

instance (c : Cluster) (act : Action) : Decidable (Uninterrupted c act) :=
  inferInstanceAs (Decidable (_ ∧ _))

/-- A step in which entries were to be built has not panicked, and what it built fits the log. -/
def Transition.BuildsWell (tr : Transition) : Prop :=
  tr.input = .appendTurn → tr.effects.lost = none ∧
    ∀ peer req, (peer, .append req) ∈ tr.effects.calls → req.FitsLog tr.before.node

section Node

variable {n : Node} {next : Int}

/-- The slice of entries from an index on is the log from there. -/
theorem Node.entriesToSend_eq (hlow : n.snapshotIndex < next) (hhigh : next ≤ n.lastLogIndex + 1) :
    n.entriesToSend next = some (n.log.drop (next - n.snapshotIndex - 1).toNat) := by
  have hlast : n.lastLogIndex = n.snapshotIndex + n.log.length := rfl
  unfold Node.entriesToSend
  split
  · exact if_neg (by omega)
  · rw [List.drop_eq_nil_of_le (by omega)]

/-- The preceding term is what the log represents. -/
theorem Node.prevLogTerm_eq {i : Int} (h : n.snapshotIndex ≤ i) : n.prevLogTerm i = n.represented i := by
  simp only [Node.prevLogTerm, Node.represented]
  split
  · rw [if_neg (by omega)]
  · rw [if_pos (by omega), if_pos (by omega)]

/-- Between the snapshot and the end of the log the request can be built, and it fits. -/
theorem Node.appendEntriesRequest_fits (hlow : n.snapshotIndex < next) (hhigh : next ≤ n.lastLogIndex + 1) :
    ∃ req, n.appendEntriesRequest next = some req ∧ req.FitsLog n := by
  obtain ⟨term, hterm⟩ : ∃ term, n.represented (next - 1) = some term := by
    unfold Node.represented
    split
    · exact ⟨_, rfl⟩
    · obtain ⟨e, he⟩ := Node.exists_entryAt (n := n) (i := next - 1) (by omega) (by omega)
      exact ⟨e.term, by rw [he]; rfl⟩
  have hprev : n.prevLogTerm (next - 1) = some term := by rw [Node.prevLogTerm_eq (by omega), hterm]
  refine ⟨_, by rw [Node.appendEntriesRequest, hprev, Node.entriesToSend_eq hlow hhigh]; rfl, ?_, hterm, ?_⟩
  · change n.snapshotIndex ≤ next - 1
    omega
  · intro j
    change (n.log.drop (next - n.snapshotIndex - 1).toNat)[j]? = n.entryAt (next - 1 + 1 + j)
    rw [Node.entryAt_of_lt (by omega), List.getElem?_drop]
    congr 1
    omega

end Node

section Turns

variable {sv after : Server} {fresh : ℕ} {input : Input} {d : PersistentState}

/-- A node that is in office behind a snapshot's handler has not installed it. -/
theorem Node.handleInstallSnapshot_in_office (n : Node) (req : InstallSnapshotRequest) :
    (n.handleInstallSnapshot req).Ensures True (fun _ => True)
      (fun r _ => r.1.role = .leader → r.1.snapshotIndex = n.snapshotIndex) d := by
  have hinstall : ∀ (n₁ : Node) (d₁ : PersistentState), (n₁.installFromLeader req).Ensures True (fun _ => True)
      (fun r _ => r.1.role = .leader → r.1.snapshotIndex = n.snapshotIndex) d₁ := by
    intro n₁ d₁
    refine Node.installFromLeader_rule (fun _ => nofun) fun _ => ⟨fun _ => ⟨trivial, nofun⟩, ?_⟩
    exact Node.applySnapshot_rule ⟨fun _ => ⟨trivial, nofun⟩, nofun⟩ fun _ => ⟨fun _ => ⟨trivial, nofun⟩, nofun⟩
  exact Node.handleInstallSnapshot_rule (fun _ _ => rfl) (fun _ _ _ => rfl)
    (fun _ _ => ⟨fun _ => ⟨trivial, fun _ => rfl⟩, hinstall _ _⟩) fun _ _ => hinstall _ _

/-- The same for the process. -/
theorem Server.snapshotIndex_eq_of_install (sv : Server) (fates : List Fate) (req : InstallSnapshotRequest)
    (hleads : (sv.carryOut fates (sv.planReceive (.install req))).1.node.role = .leader) :
    (sv.carryOut fates (sv.planReceive (.install req))).1.node.snapshotIndex = sv.node.snapshotIndex := by
  revert hleads
  refine Server.perform_rule (P := fun result => result.1.node.role = .leader →
    result.1.node.snapshotIndex = sv.node.snapshotIndex) (Node.handleInstallSnapshot_in_office sv.node req)
    (Or.inl trivial) ?_ fun _ disk _ hleads => ?_
  · rintro ⟨node, _ | _⟩ disk hkept hleads <;> exact hkept hleads
  · cases (newNode_role sv.node.id sv.node.peers disk).symm.trans hleads

/-- Only a compaction moves the start of a leader's log. -/
theorem Server.Move.snapshotIndex_eq {fates : List Fate} {result : Server × Effects}
    (hmove : sv.Move fresh fates input result) (hleads : result.1.node.role = .leader)
    (hcompacts : ∀ index data, input = .takeSnapshot index data → index ≤ sv.node.snapshotIndex) :
    result.1.node.snapshotIndex = sv.node.snapshotIndex := by
  cases hmove.logMove with
  | leads hevent =>
    obtain ⟨ev, harises, hnode, _⟩ := hevent
    have hindex : result.1.node.snapshotIndex = (ev.node sv.node).snapshotIndex := congrArg (·.1) hnode
    cases harises with
    | none | append | truncate | replace | propose => exact hindex
    | @install req =>
      cases hmove
      exact sv.snapshotIndex_eq_of_install fates req hleads
    | compact _ hentry => exact absurd (hcompacts _ _ rfl) (Int.not_le.mpr (Node.entryAt_eq_some hentry).1)
  | lost => cases (newNode_role sv.node.id sv.node.peers _).symm.trans hleads
  | wakeApply | drain | sendSnapshot | recordSnapshot | park | pickEntry | sendEntry => rfl

/-- A leader that is about to build entries for a peer has a request to it under way, or starts its log no later than
at the peer's next index. -/
def Server.Poised (sv : Server) : Prop :=
  ∀ peer ∈ sv.main.turn, sv.node.role = .leader → sv.node.replicateInFlight peer = false →
    sv.node.snapshotIndex < max 1 (sv.node.nextIndex peer)

/-- Whoever is not about to build entries is poised. -/
theorem Server.Poised.idle (h : sv.main.turn = none) : sv.Poised := by
  intro peer hpeer
  rw [h] at hpeer
  cases hpeer

/-- A leader stays poised while its main loop waits for the second section: a peer without a request under way is
answered by no goroutine. -/
theorem Server.Poised.waits (h : sv.Poised) (hslots : sv.Slotted) (hbooks : sv.Books fresh input after)
    (hmain : after.main = sv.main ∨ after.main.turn = none) (hself : ∀ peer ∈ sv.main.turn, peer ≠ sv.node.id)
    (hstart : after.node.role = .leader → after.node.snapshotIndex = sv.node.snapshotIndex)
    (hcalm : sv.interrupted input = false) : after.Poised := by
  rcases hmain with hmain | hmain
  swap
  · exact .idle hmain
  intro peer hpeer hleads hidle
  rw [hmain] at hpeer
  rw [hstart hleads]
  have hne := hself peer hpeer
  have hkept : sv.node.role = .leader → sv.node.replicateInFlight peer = false →
      after.node.nextIndex peer = sv.node.nextIndex peer →
      sv.node.snapshotIndex < max 1 (after.node.nextIndex peer) := by
    intro hrole hflag hnext
    rw [hnext]
    exact h peer hpeer hrole hflag
  -- a goroutine with a request to the peer keeps the flag set
  have hbusy : ∀ send ∈ sv.sends, after.node.replicateInFlight = sv.node.replicateInFlight → send.peer ≠ peer := by
    rintro send hsend hflags rfl
    rw [hflags, hslots.flagged _ (List.mem_map_of_mem hsend)] at hidle
    cases hidle
  cases hbooks with
  | rebooted hrole => exact absurd hleads hrole
  | kept hnode => exact hkept (hnode.office hleads).1 (hnode.flags ▸ hidle) (hnode.progress peer hne).1
  | elected hpolling =>
    rw [hpolling] at hpeer
    cases hpeer
  | @started other _ _ hnode =>
    rw [hnode] at hidle hleads
    by_cases hother : peer = other
    · subst hother
      rw [show (sv.node.sending peer).replicateInFlight peer = true from Function.update_self ..] at hidle
      cases hidle
    · have hflag : (sv.node.sending other).replicateInFlight peer = sv.node.replicateInFlight peer :=
        Function.update_of_ne hother ..
      exact hkept hleads (hflag.symm.trans hidle) (by rw [hnode]; rfl)
  | @finished send hinput hsend hflags hnode =>
    by_cases hother : peer = send.peer
    · subst hother hinput
      simp only [Server.interrupted, List.any_eq_false, decide_eq_true_eq, not_and] at hcalm
      exact absurd hpeer (hcalm send hsend rfl)
    · rw [hflags, Function.update_of_ne hother] at hidle
      exact hkept (hnode.office hleads).1 hidle (hnode.progress peer hne).1
  | @rejected send _ resp _ hsend _ hrole _ _ hnode =>
    have hother := hbusy send hsend (by rw [hnode]; rfl)
    have hnext : after.node.nextIndex peer = sv.node.nextIndex peer := by
      rw [hnode]
      exact Function.update_of_ne hother.symm ..
    exact hkept hrole (by rw [hnode] at hidle; exact hidle) hnext
  | @accepted send req _ _ hsend _ hrole _ _ hnode =>
    have hother := hbusy send hsend hnode.flags
    have hnext : after.node.nextIndex peer = sv.node.nextIndex peer :=
      (hnode.progress peer hne).1.trans (Function.update_of_ne hother.symm ..)
    exact hkept hrole (hnode.flags ▸ hidle) hnext
  | @installed send req _ _ hsend _ hrole _ hnode =>
    have hother := hbusy send hsend hnode.flags
    have hnext : after.node.nextIndex peer = sv.node.nextIndex peer :=
      (hnode.progress peer hne).1.trans (Function.update_of_ne hother.symm ..)
    exact hkept hrole (hnode.flags ▸ hidle) hnext

/-- The first section for a peer leaves the leader poised. -/
theorem Server.poised_visit {peer : String} {todo : List String} :
    (sv.carryOut [] (sv.planVisit fresh peer todo)).1.Poised := by
  have hproceeds : (sv.node.installSnapshotRequestForPeer peer).Ensures False (fun _ => True)
      (fun r _ => r.2 = some none → r.1.replicateInFlight peer = true ∨
        r.1.snapshotIndex < max 1 (r.1.nextIndex peer)) sv.disk :=
    Node.installSnapshotRequestForPeer_rule (fun _ _ => trivial) (fun _ => nofun)
      (fun _ hskip _ => Or.inr (by dsimp only; omega)) (fun _ hbusy _ => Or.inl hbusy) fun _ _ _ _ _ => nofun
  refine Server.perform_rule (P := fun result => result.1.Poised) hproceeds (Or.inr rfl) ?_ fun _ _ _ => .idle rfl
  rintro ⟨node, _ | _ | req⟩ disk hresult
  · exact .idle rfl
  · rintro _ ⟨⟩ _ hidle
    exact (hresult rfl).resolve_left fun hbusy => by cases hbusy.symm.trans hidle
  · exact .idle rfl

/-- A section leaves the main loop where its result leaves it, unless it ends the process. -/
theorem Server.perform_main {A : Type} {fates : List Fate} {p : Section A}
    {next : A → PersistentState → Server × Effects}
    (hnext : ∀ r disk, (next r disk).1.main = sv.main ∨ (next r disk).1.main.turn = none) :
    (sv.perform fates p next).1.main = sv.main ∨ (sv.perform fates p next).1.main.turn = none := by
  rw [Server.perform]
  split
  · exact hnext _ _
  · exact Or.inr rfl
  · exact Or.inr rfl

/-- A step other than a visit leaves the main loop where it is or with no peer to build entries for. -/
theorem Server.Move.main_cases {fates : List Fate} {result : Server × Effects}
    (hmove : sv.Move fresh fates input result) (hvisit : ∀ peer, input ≠ .visit peer) :
    result.1.main = sv.main ∨ result.1.main.turn = none := by
  cases hmove with
  | visit => exact absurd rfl (hvisit _)
  | dispatch =>
    simp only [NodeProcess.dispatch]
    split
    · exact Or.inr rfl
    · split <;> exact Or.inr rfl
  | restart | electionTimeout | openPoll | pollTimeout | startRoundNotified | startRound => exact Or.inr rfl
  | startElection | voteAnswered => exact Server.perform_main (by rintro ⟨node, _ | _⟩ disk <;> exact Or.inr rfl)
  | appendTurn => exact Server.perform_main (by rintro ⟨node, _ | _ | _⟩ disk <;> exact Or.inr rfl)
  | receive req => cases req <;> exact Server.perform_main (by rintro ⟨node, _ | _⟩ disk <;> exact Or.inl rfl)
  | takeSnapshot => exact Server.perform_main (by rintro ⟨node, _ | _⟩ disk <;> exact Or.inl rfl)
  | appendAnswered | installAnswered | startCommand | pickEntry =>
    exact Server.perform_main fun _ _ => Or.inl rfl
  | electionReset | callFailed | signal | finish | notify | wakeApply | drain | sendSnapshot | recordSnapshot
  | sendEntry => exact Or.inl rfl

/-- **Every step leaves a leader poised** if it does not come between the two sections for a peer. -/
theorem Server.Poised.step {result : Server × Effects} (h : sv.Poised) (hslots : sv.Slotted)
    (hmove : sv.Move fresh [] input result) (hbooks : sv.Books fresh input result.1)
    (hself : ∀ peer ∈ sv.main.turn, peer ≠ sv.node.id) (hcalm : sv.interrupted input = false) :
    result.1.Poised := by
  by_cases hvisit : ∃ peer, input = .visit peer
  · obtain ⟨peer, rfl⟩ := hvisit
    cases hmove
    exact Server.poised_visit
  · have hmain := hmove.main_cases fun peer hinput => hvisit ⟨peer, hinput⟩
    cases hturn : sv.main.turn with
    | none => exact .idle (hmain.elim (fun hsame => hsame ▸ hturn) fun hnone => hnone)
    | some peer =>
      refine h.waits hslots hbooks hmain hself (fun hleads => hmove.snapshotIndex_eq hleads ?_) hcalm
      rintro index data rfl
      simpa [Server.interrupted, hturn] using hcalm

end Turns

variable {m : Membership} {c c' : Cluster}

/-- Whoever a main loop is about to build entries for is a peer. -/
theorem Wired.turn (h : Wired m c) {id peer : String} (hid : id ∈ m.ids) (hturn : peer ∈ (c.servers id).main.turn) :
    peer ∈ (c.servers id).node.peers ∧ peer ≠ (c.servers id).node.id := by
  have hwired := h.servers id hid
  have hmain := hwired.main
  have hpeer : peer ∈ normalizePeers id m.ids := by
    cases heq : (c.servers id).main <;> rw [heq] at hturn hmain
    case appending other todo =>
      cases hturn
      exact hmain peer List.mem_cons_self
    all_goals cases hturn
  rw [hwired.placed.peers, hwired.placed.self]
  exact ⟨hpeer, (Membership.mem_peers.mp hpeer).2⟩

/-- A leader that is poised can build its request, and it fits. -/
theorem LogRefines.request_fits {a : RaftLog} (h : LogRefines m c a) {id peer : String} (hid : id ∈ m.ids)
    (hpoised : (c.servers id).Poised) (hturn : peer ∈ (c.servers id).main.turn)
    (hrole : (c.servers id).node.role = .leader) (hidle : (c.servers id).node.replicateInFlight peer = false) :
    ∃ req, (c.servers id).node.appendEntriesRequest (max 1 ((c.servers id).node.nextIndex peer)) = some req ∧
      req.FitsLog (c.servers id).node := by
  have hlast := ((h.servers id hid).log.leader hrole).next peer (h.wired.turn hid hturn).1
  have hlen : 0 ≤ (c.servers id).node.lastLogIndex := by
    rw [(h.servers id hid).log.logs.window.lastLogIndex]
    exact Int.natCast_nonneg _
  exact Node.appendEntriesRequest_fits (hpoised peer hturn hrole hidle) (by omega)

/-- A leader that is poised builds well. -/
theorem LogRefines.buildsWell {a : RaftLog} (h : LogRefines m c a) {id : String} (hid : id ∈ m.ids)
    (hpoised : (c.servers id).Poised) {fresh : ℕ} {fates : List Fate} {input : Input} {result : Server × Effects}
    (hmove : (c.servers id).Move fresh fates input result) :
    Transition.BuildsWell
      { id := id, input := input, before := c.servers id, after := result.1, effects := result.2 } := by
  rintro rfl
  cases hmove with
  | @appendTurn peer todo hmain =>
    have hturn : peer ∈ (c.servers id).main.turn := by
      rw [hmain]
      rfl
    have hfits := h.request_fits hid hpoised hturn
    have hbuilt : ((c.servers id).node.appendEntriesRequestForPeer peer).Ensures True (fun _ => False)
        (fun r _ => ∀ req, r.2 = some (some req) → req.FitsLog (c.servers id).node) (c.servers id).disk := by
      refine Node.appendEntriesRequestForPeer_rule (fun hrole hidle hnone => ?_) (fun _ => nofun)
        (fun _ _ => nofun) fun hrole hidle req hreq req' hreq' => ?_
      · obtain ⟨req, hreq, _⟩ := hfits hrole hidle
        rw [hnone] at hreq
        cases hreq
      · cases hreq'
        obtain ⟨req₀, hreq₀, hfit⟩ := hfits hrole hidle
        rw [hreq] at hreq₀
        cases hreq₀
        exact hfit
    refine Server.perform_rule (P := fun result => result.2.lost = none ∧
      ∀ peer req, (peer, .append req) ∈ result.2.calls → req.FitsLog (c.servers id).node) hbuilt
      (Or.inl trivial) ?_ fun _ _ hfalse => hfalse.elim
    rintro ⟨node, _ | _ | req⟩ disk hfit
    · exact ⟨rfl, nofun⟩
    · exact ⟨rfl, nofun⟩
    · refine ⟨rfl, fun peer' req' hmem => ?_⟩
      cases List.mem_singleton.mp hmem
      exact hfit req rfl

/-- Runs without interruptions are undisturbed. -/
theorem undisturbed_of_uninterrupted (run : ClusterReachable m Uninterrupted c) : ClusterReachable m Undisturbed c :=
  run.mono fun _ _ ⟨act, hact, hstep⟩ => ⟨act, hact.1, hstep⟩

/-- **All leaders are poised** throughout runs in which nothing comes between the two sections for a peer. -/
theorem poised_of_uninterrupted (run : ClusterReachable m Uninterrupted c) : ∀ id ∈ m.ids, (c.servers id).Poised := by
  refine run.invariant (P := fun c => ∀ id ∈ m.ids, (c.servers id).Poised) ?_ ?_
  · rintro c rfl id _
    exact .idle rfl
  · rintro c c' run ih ⟨act, ⟨hcalm, hkept⟩, hstep⟩ id hid
    obtain ⟨mover, input, served, after, effects, hsource, hmove, rfl⟩ := Cluster.step_cases hstep
    by_cases hother : id = mover
    · subst hother
      obtain ⟨a, _, hrefines, hsound⟩ := progressSound_of_undisturbed (undisturbed_of_uninterrupted run)
      have hcalm' : (c.servers id).interrupted input = false := by
        cases hsource with
        | act => exact hkept _ rfl
        | deliver => rfl
        | @answer _ _ reply => cases reply <;> rfl
      rw [hcalm.1] at hmove
      rw [Cluster.record_servers_self]
      exact (ih id hid).step (hsound.slots id hid) hmove (hrefines.books hid hmove)
        (fun peer hpeer => (hrefines.wired.turn hid hpeer).2) hcalm'
    · rw [Cluster.record_servers_of_ne _ _ _ _ _ hother]
      exact ih id hid

/-- **Requests are well formed.** In runs in which no request to a peer ends and nothing is compacted between the two
sections for this peer, building entries never panics, and each request that is built fits the leader's log. -/
theorem append_requests_fit (run : ClusterReachable m Uninterrupted c) : ∀ tr ∈ c.trace, tr.BuildsWell := by
  refine run.invariant (P := fun c => ∀ tr ∈ c.trace, tr.BuildsWell) ?_ ?_
  · rintro c rfl tr htr
    exact absurd htr List.not_mem_nil
  · rintro c c' run h ⟨act, _, hstep⟩ tr htr
    obtain ⟨id, input, served, after, effects, hsource, hmove, rfl⟩ := Cluster.step_cases hstep
    rcases List.mem_cons.mp htr with rfl | hold
    · obtain ⟨a, _, hrefines⟩ := logRefines_of_undisturbed (undisturbed_of_uninterrupted run)
      have hid := (hrefines.wired.source hsource).1
      exact hrefines.buildsWell hid (poised_of_uninterrupted run id hid) hmove
    · exact h tr hold

/-- A leader that has compacted its first command builds a request from behind the snapshot. -/
theorem append_requests_fit_behind_snapshot :
    ∃ c, ClusterReachable threeNodes Uninterrupted c ∧ ∃ tr ∈ c.trace, tr.input = .appendTurn ∧
      tr.before.node.snapshotIndex = 1 ∧ tr.effects.calls ≠ [] ∧ tr.BuildsWell := by
  have hrun : ((Cluster.first threeNodes.ids).run threeNodes Uninterrupted
      (electionOf "a" 0 1 ++ [.act "a" (.startCommand [7]) [], .act "a" (.startRound true) []] ++
        replicationOf "a" "b" 2 1 ++ replicationOf "a" "c" 3 1 ++ applicationBy "a" ++
        [.act "a" (.takeSnapshot 1 []) [], .act "a" (.startRound true) [], .act "a" (.visit "b") [],
          .act "a" .appendTurn []])).map
      (fun c => decide (∃ tr ∈ c.trace, tr.input = .appendTurn ∧ tr.before.node.snapshotIndex = 1 ∧
        tr.effects.calls ≠ [])) = some true := by
    decide +kernel
  obtain ⟨c, hc, hfacts⟩ := exists_reachable_of_run hrun
  obtain ⟨tr, htr, hinput, hindex, hcalls⟩ := of_decide_eq_true hfacts
  exact ⟨c, hc, tr, htr, hinput, hindex, hcalls, append_requests_fit hc tr htr⟩

/-- Leader `a` has a request to `b` under way when it commits a command with `c` and compacts it. In the
next round it passes over the snapshot for `b` because of that request; the request ends, and
building entries for `b` slices at a negative index. -/
def sliceBeforeSnapshot : List Action :=
  electionOf "a" 0 1 ++ [.act "a" (.startCommand [7]) [], .act "a" (.startRound true) [],
    .act "a" (.visit "b") [], .act "a" .appendTurn []] ++ replicationOf "a" "c" 3 1 ++ applicationBy "a" ++
    [.act "a" (.takeSnapshot 1 []) [], .act "a" (.startRound true) [], .act "a" (.visit "b") [],
      .act "a" (.callFailed 2) [], .act "a" (.finish 2) [], .act "a" .appendTurn []]

/-- Building entries for a peer that needs the snapshot panics. -/
theorem append_request_panics : ∃ c, ClusterReachable threeNodes Undisturbed c ∧
    ∃ tr ∈ c.trace, tr.input = .appendTurn ∧ tr.before.node.snapshotIndex = 1 ∧
      tr.before.node.nextIndex "b" = 1 ∧ tr.effects.lost = some true ∧ ¬tr.BuildsWell := by
  have hrun : ((Cluster.first threeNodes.ids).run threeNodes Undisturbed sliceBeforeSnapshot).map
      (fun c => decide (∃ tr ∈ c.trace, tr.input = .appendTurn ∧ tr.before.node.snapshotIndex = 1 ∧
        tr.before.node.nextIndex "b" = 1 ∧ tr.effects.lost = some true)) = some true := by
    decide +kernel
  obtain ⟨c, hc, hfacts⟩ := exists_reachable_of_run hrun
  obtain ⟨tr, htr, hinput, hindex, hnext, hlost⟩ := of_decide_eq_true hfacts
  refine ⟨c, hc, tr, htr, hinput, hindex, hnext, hlost, fun hwell => ?_⟩
  have hnone := (hwell hinput).1
  rw [hlost] at hnone
  cases hnone

end ConsensusLab.Raft
