import ConsensusLab.Raft.Backtracking
import ConsensusLab.Raft.ReplicationProgress

/-!
# How a cluster can go on

Steps that a cluster can take next, for statements about what it is still able to do. Of
the members only those on one side take part, and storage works. One member can act on
its own; a leader between two rounds can start a round, exchange a request and its
answer with one peer, and let its calls to the others fail, after which it is between
two rounds again.
-/

namespace ConsensusLab.Raft

open Foundation Relation

/-- Storage works, logs are compacted as far as they have been applied, and only members on a side take steps and
exchange messages. -/
def Among (side : Finset String) (c : Cluster) (act : Action) : Prop :=
  Undisturbed c act ∧
    match act with
    | .act id _ _ => id ∈ side
    | .deliver handle _ | .answer handle _ _ =>
      ∀ call ∈ c.calls[handle]?, call.caller ∈ side ∧ call.callee ∈ side

/-- What a cluster can become while only one side is up. -/
abbrev Continues (m : Membership) (side : Finset String) : Cluster → Cluster → Prop :=
  ReflTransGen (ClusterStep m (Among side))

/-- The same by steps of one member alone. -/
abbrev SoloPath (m : Membership) (side : Finset String) (id : String) : Cluster → Cluster → Prop :=
  LocalPath (ClusterStep m (Among side)) Cluster.servers id

variable {m : Membership} {side : Finset String} {c c' : Cluster} {id peer : String}

/-- Calls, responses and the record of steps are only added to. -/
structure Cluster.Grows (c c' : Cluster) : Prop where
  calls : c.calls <+: c'.calls
  replies : c.replies ⊆ c'.replies
  trace : c.trace <:+ c'.trace

/-- Calls, responses and the record of steps are kept while a cluster goes on. -/
theorem Continues.grows (path : Continues m side c c') : c.Grows c' := by
  induction path with
  | refl => exact ⟨List.prefix_refl _, List.Subset.refl _, List.suffix_refl _⟩
  | tail _ hstep ih =>
    obtain ⟨act, _, hstep⟩ := hstep
    obtain ⟨id, input, served, after, effects, _, _, rfl⟩ := Cluster.step_cases hstep
    exact ⟨ih.calls.trans (List.prefix_append ..), List.Subset.trans ih.replies (List.subset_append_left ..),
      ih.trace.trans (List.suffix_cons ..)⟩

/-- What is reached without disturbance goes on without disturbance. -/
theorem Continues.reachable (path : Continues m side c c') (run : ClusterReachable m Undisturbed c) :
    ClusterReachable m Undisturbed c' := by
  induction path with
  | refl => exact run
  | tail _ hstep ih =>
    obtain ⟨act, hamong, hstep⟩ := hstep
    exact ih.next ⟨act, hamong.1, hstep⟩

section Steps

variable {input : Input} {after : Server} {effects : Effects}

/-- A member takes a step of its own. -/
theorem SoloPath.act (hid : id ∈ m.ids) (hside : id ∈ side) (hlocal : input.isLocal = true)
    (hcompaction : (Action.act id input []).compaction = none)
    (hstep : (c.servers id).step c.calls.length [] input = some (after, effects)) :
    SoloPath m side id c (c.record id input none after effects) := by
  refine .single ⟨.act id input [], ⟨⟨rfl, fun p hp => ?_⟩, hside⟩, ?_⟩ fun p hp => ?_
  · rw [hcompaction] at hp
    cases hp
  · simp only [Cluster.step, hid, hlocal, and_self, if_true, Cluster.advance, hstep, Option.map_some]
  · exact Cluster.record_servers_of_ne _ _ _ _ _ hp

/-- A call between two members of the side is delivered. -/
theorem SoloPath.deliver {handle : ℕ} {call : Call} (hcall : c.calls[handle]? = some call)
    (hcaller : call.caller ∈ side) (hcallee : call.callee ∈ side)
    (hstep : (c.servers call.callee).step c.calls.length [] (.receive call.request) = some (after, effects)) :
    SoloPath m side call.callee c (c.record call.callee (.receive call.request) (some handle) after effects) := by
  refine .single ⟨.deliver handle [], ⟨⟨rfl, fun p hp => by cases hp⟩, fun call' hcall' => ?_⟩, ?_⟩ fun p hp => ?_
  · rw [hcall] at hcall'
    cases hcall'
    exact ⟨hcaller, hcallee⟩
  · simp only [Cluster.step, hcall, bind, Option.bind_some, Cluster.advance, hstep, Option.map_some]
  · exact Cluster.record_servers_of_ne _ _ _ _ _ hp

/-- A response between two members of the side is read. -/
theorem SoloPath.answer {handle : ℕ} {call : Call} {reply : Reply} (hcall : c.calls[handle]? = some call)
    (hcaller : call.caller ∈ side) (hcallee : call.callee ∈ side) (hreply : (handle, reply) ∈ c.replies)
    (hstep : (c.servers call.caller).step c.calls.length [] (reply.input handle) = some (after, effects)) :
    SoloPath m side call.caller c (c.record call.caller (reply.input handle) none after effects) := by
  refine .single ⟨.answer handle reply [], ⟨⟨rfl, fun p hp => by cases hp⟩, fun call' hcall' => ?_⟩, ?_⟩ fun p hp => ?_
  · rw [hcall] at hcall'
    cases hcall'
    exact ⟨hcaller, hcallee⟩
  · simp only [Cluster.step, hcall, bind, Option.bind_some, hreply, if_true, Cluster.advance, hstep, Option.map_some]
  · exact Cluster.record_servers_of_ne _ _ _ _ _ hp

/-- One member has gone on alone: what has become of its process, and which calls it has started. -/
structure Alone (m : Membership) (side : Finset String) (id : String) (c : Cluster) (sv : Server) (calls : List Call)
    (c' : Cluster) : Prop where
  path : SoloPath m side id c c'
  server : c'.servers id = sv
  calls : c'.calls = c.calls ++ calls
  replies : c'.replies = c.replies

/-- The member stays where it is. -/
theorem Alone.refl (m : Membership) (side : Finset String) (id : String) (c : Cluster) :
    Alone m side id c (c.servers id) [] c :=
  ⟨.refl c, rfl, (List.append_nil _).symm, rfl⟩

/-- The member takes one more step. -/
theorem Alone.act {sv : Server} {calls new : List Call} (h : Alone m side id c sv calls c') (hid : id ∈ m.ids)
    (hside : id ∈ side) (input : Input) (effects : Effects) (hlocal : input.isLocal = true)
    (hcompaction : (Action.act id input []).compaction = none)
    (hstep : sv.step (c.calls.length + calls.length) [] input = some (after, effects))
    (hnew : new = calls ++ effects.calls.map fun (p, req) => { caller := id, callee := p, request := req }) :
    ∃ c'', Alone m side id c after new c'' := by
  have hfresh : c'.calls.length = c.calls.length + calls.length := by rw [h.calls, List.length_append]
  rw [← hfresh, ← h.server] at hstep
  refine ⟨_, h.path.trans (SoloPath.act hid hside hlocal hcompaction hstep), Cluster.record_servers_self .., ?_, ?_⟩
  · change c'.calls ++ _ = _
    rw [h.calls, hnew, List.append_assoc]
  · exact (List.append_nil _).trans h.replies

/-- A call between two members of the side is delivered and answered. -/
theorem exists_delivered {handle : ℕ} {call : Call} {reply : Reply} (hcall : c.calls[handle]? = some call)
    (hcaller : call.caller ∈ side) (hcallee : call.callee ∈ side)
    (hstep : (c.servers call.callee).step c.calls.length [] (.receive call.request) =
      some (after, { reply := some reply })) :
    ∃ c', SoloPath m side call.callee c c' ∧ c'.servers call.callee = after ∧ c'.calls = c.calls ∧
      (handle, reply) ∈ c'.replies := by
  refine ⟨_, SoloPath.deliver hcall hcaller hcallee hstep, Cluster.record_servers_self .., List.append_nil _, ?_⟩
  exact List.mem_append_right _ List.mem_cons_self

/-- A response between two members of the side is read. -/
theorem exists_answered {handle : ℕ} {call : Call} {reply : Reply} (hcall : c.calls[handle]? = some call)
    (hcaller : call.caller ∈ side) (hcallee : call.callee ∈ side) (hreply : (handle, reply) ∈ c.replies)
    (hstep : (c.servers call.caller).step c.calls.length [] (reply.input handle) = some (after, {})) :
    ∃ c', Alone m side call.caller c after [] c' :=
  ⟨_, SoloPath.answer hcall hcaller hcallee hreply hstep, Cluster.record_servers_self .., rfl, List.append_nil _⟩

/-- A section that has a value is performed with it. -/
theorem Server.perform_of_value {A : Type} {sv : Server} {p : Section A}
    {next : A → PersistentState → Server × Effects} {a : A} {disk : PersistentState} {result : Server × Effects}
    (h : p.value sv.disk = some (a, disk)) (hresult : next a disk = result) : sv.perform [] p next = result := by
  unfold Section.value at h
  unfold Server.perform
  split at h
  · cases h
    rw [‹p.run [] sv.disk = _›]
    exact hresult
  · cases h

end Steps

/-- The main loop of a leader, with the peers that its round still has to visit and no call under way. -/
structure Server.Presiding (sv : Server) (todo : List String) : Prop where
  leads : sv.node.role = .leader
  main : sv.main = .leading todo
  quiet : sv.sends = []
  idle : ∀ p, sv.node.replicateInFlight p = false

/-- The nodes differ in what they know about calls under way, at most. -/
def Node.Reflagged (n n' : Node) : Prop :=
  ∃ inFlight pending notify,
    n' = { n with replicateInFlight := inFlight, replicatePending := pending, replicateNotify := notify }

/-- Knowing the same about calls under way. -/
theorem Node.Reflagged.refl (n : Node) : n.Reflagged n :=
  ⟨_, _, _, rfl⟩

/-- One difference after another. -/
theorem Node.Reflagged.trans {n n' n'' : Node} (h : n.Reflagged n') (h' : n'.Reflagged n'') : n.Reflagged n'' := by
  obtain ⟨_, _, _, rfl⟩ := h
  obtain ⟨inFlight, pending, notify, rfl⟩ := h'
  exact ⟨inFlight, pending, notify, rfl⟩

/-- A leader whose call has come to nothing. -/
theorem Node.reflagged_of_failed (n : Node) (p : String) : n.Reflagged ((n.sending p).finishSend p) := by
  obtain ⟨notify, hfinish⟩ := (n.sending p).finishSend_eq p
  exact ⟨_, _, notify, hfinish⟩

/-- A call that has ended is no longer in flight. -/
theorem Node.idle_finishSend {n : Node} {p : String} (h : ∀ q, q ≠ p → n.replicateInFlight q = false) (q : String) :
    (n.finishSend p).replicateInFlight q = false := by
  obtain ⟨notify, hfinish⟩ := n.finishSend_eq p
  rw [hfinish]
  change Function.update n.replicateInFlight p false q = false
  by_cases hq : q = p
  · rw [hq, Function.update_self]
  · rw [Function.update_of_ne hq, h q hq]

/-- The goroutine of a new call. -/
def newSend (c : Cluster) (peer : String) (phase : SendPhase) : Send where
  handle := c.calls.length
  peer := peer
  phase := phase

section Calls

variable {todo : List String} {n n' : Node} {d d' : PersistentState}
  (hid : id ∈ m.ids) (hside : id ∈ side) (hpresides : (c.servers id).Presiding todo) (hpeer : peer ∈ todo)
include hid hside hpresides hpeer

/-- The main loop visits a peer and sends it the snapshot. -/
theorem exists_installCall {req : InstallSnapshotRequest}
    (hvalue : ((c.servers id).node.installSnapshotRequestForPeer peer).value (c.servers id).disk =
      some ((n, some (some req)), d)) :
    ∃ c', Alone m side id c
      { (c.servers id) with
        node := n
        main := .leading (todo.erase peer)
        sends := [newSend c peer (.waitingInstall req)]
        disk := d }
      [{ caller := id, callee := peer, request := .install req }] c' := by
  refine (Alone.refl m side id c).act hid hside (.visit peer) { calls := [(peer, .install req)] } rfl rfl ?_ rfl
  simp only [Server.step, NodeProcess.plan, hpresides.main, hpeer, if_true, Option.map_some, Server.carryOut,
    NodeProcess.planVisit, hpresides.quiet]
  exact congrArg some (Server.perform_of_value hvalue rfl)

/-- The main loop visits a peer and sends it entries. -/
theorem exists_appendCall {req : AppendEntriesRequest}
    (hskip : ((c.servers id).node.installSnapshotRequestForPeer peer).value (c.servers id).disk =
      some ((n, some none), d))
    (hvalue : (n.appendEntriesRequestForPeer peer).value d = some ((n', some (some req)), d')) :
    ∃ c', Alone m side id c
      { (c.servers id) with
        node := n'
        main := .leading (todo.erase peer)
        sends := [newSend c peer (.waitingAppend req)]
        disk := d' }
      [{ caller := id, callee := peer, request := .append req }] c' := by
  obtain ⟨c₁, h₁⟩ : ∃ c₁, Alone m side id c
      { (c.servers id) with node := n, main := .appending peer (todo.erase peer), disk := d } [] c₁ := by
    refine (Alone.refl m side id c).act hid hside (.visit peer) {} rfl rfl ?_ rfl
    simp only [Server.step, NodeProcess.plan, hpresides.main, hpeer, if_true, Option.map_some, Server.carryOut,
      NodeProcess.planVisit]
    exact congrArg some (Server.perform_of_value hskip rfl)
  refine h₁.act hid hside .appendTurn { calls := [(peer, .append req)] } rfl rfl ?_ rfl
  simp only [Server.step, NodeProcess.plan, Option.map_some, Server.carryOut, NodeProcess.planAppendTurn,
    hpresides.quiet]
  exact congrArg some (Server.perform_of_value hvalue rfl)

end Calls

section Sends

variable {sv : Server} {calls : List Call} {send : Send}

/-- The only goroutine is found. -/
theorem NodeProcess.findSend_of_single (hsends : sv.sends = [send]) : sv.findSend send.handle = some send := by
  simp [NodeProcess.findSend, hsends]

/-- The only goroutine moves on. -/
theorem NodeProcess.setPhase_single (send : Send) (phase : SendPhase) :
    NodeProcess.setPhase [send] send.handle phase = [{ send with phase := phase }] := by
  simp [NodeProcess.setPhase]

/-- The only goroutine ends: it gives its flag back and notifies the main loop if it has to. -/
theorem Alone.finish (h : Alone m side id c sv calls c') (hid : id ∈ m.ids) (hside : id ∈ side) (send : Send)
    (hsends : sv.sends = [send]) (hphase : send.phase = .finishing) :
    ∃ c'', Alone m side id c { sv with node := sv.node.finishSend send.peer, sends := [] } calls c'' := by
  obtain ⟨c₁, h₁⟩ : ∃ c₁, Alone m side id c { sv with
      node := (sv.node.releaseFlight send.peer).1
      sends := []
      notifying := if (sv.node.releaseFlight send.peer).2 then sv.notifying + 1 else sv.notifying } calls c₁ := by
    refine h.act hid hside (.finish send.handle) {} rfl rfl ?_ (List.append_nil _).symm
    simp only [Server.step, NodeProcess.plan, NodeProcess.findSend_of_single hsends, hphase, Option.map_some,
      Server.carryOut, Server.onDisk, NodeProcess.stepFinish, hsends]
    simp
  unfold Node.finishSend
  cases hnotify : (sv.node.releaseFlight send.peer).2 with
  | false =>
    simp only [hnotify] at h₁ ⊢
    exact ⟨c₁, h₁⟩
  | true =>
    simp only [hnotify] at h₁ ⊢
    exact h₁.act hid hside .notify {} rfl rfl rfl (List.append_nil _).symm

/-- The call of the only goroutine fails. -/
theorem Alone.fail (h : Alone m side id c sv calls c') (hid : id ∈ m.ids) (hside : id ∈ side)
    (hsends : sv.sends = [send]) (hwaiting : send.phase.waiting = true) :
    ∃ c'', Alone m side id c { sv with node := sv.node.finishSend send.peer, sends := [] } calls c'' := by
  obtain ⟨c₁, h₁⟩ : ∃ c₁, Alone m side id c { sv with sends := [{ send with phase := .finishing }] } calls c₁ := by
    refine h.act hid hside (.callFailed send.handle) {} rfl rfl ?_ (List.append_nil _).symm
    simp only [Server.step, NodeProcess.plan, NodeProcess.findSend_of_single hsends, hsends,
      NodeProcess.setPhase_single]
    cases hphase : send.phase with
    | waitingAppend req => rfl
    | waitingInstall req => rfl
    | signalling signals =>
      rw [hphase] at hwaiting
      cases hwaiting
    | finishing =>
      rw [hphase] at hwaiting
      cases hwaiting
  exact h₁.finish hid hside { send with phase := .finishing } rfl rfl

/-- The only goroutine passes its signals on and ends. -/
theorem Alone.signal (h : Alone m side id c sv calls c') (hid : id ∈ m.ids) (hside : id ∈ side)
    (hsends : sv.sends = [send]) {signals : Node.Signals} (hphase : send.phase = .signalling signals) :
    ∃ c'', Alone m side id c { sv with
      node := (if signals.replicate then (if signals.apply then sv.node.notifyApply else sv.node).signalReplicate
        else if signals.apply then sv.node.notifyApply else sv.node).finishSend send.peer
      sends := [] } calls c'' := by
  obtain ⟨c₁, h₁⟩ : ∃ c₁, Alone m side id c { sv with
      node := if signals.replicate then (if signals.apply then sv.node.notifyApply else sv.node).signalReplicate
        else if signals.apply then sv.node.notifyApply else sv.node
      sends := [{ send with phase := .finishing }] } calls c₁ := by
    refine h.act hid hside (.signal send.handle) {} rfl rfl ?_ (List.append_nil _).symm
    simp only [Server.step, NodeProcess.plan, NodeProcess.findSend_of_single hsends, hphase, Option.map_some,
      Server.carryOut, Server.onDisk, NodeProcess.stepSignal, hsends, NodeProcess.setPhase_single]
  exact h₁.finish hid hside { send with phase := .finishing } rfl rfl

end Sends

/-- What a leader and one of its peers have in memory and on disk. -/
def Cluster.pair (c : Cluster) (id peer : String) : Pair where
  leader := (c.servers id).node
  leaderDisk := (c.servers id).disk
  follower := (c.servers peer).node
  followerDisk := (c.servers peer).disk

/-- What an exchange between a leader in the middle of a round and a peer leaves behind. -/
structure Exchanged (m : Membership) (side : Finset String) (c : Cluster) (id peer : String) (todo : List String)
    (s : Pair) (c' : Cluster) : Prop where
  path : Continues m side c c'
  pair : c'.pair id peer = s
  main : (c'.servers id).main = .leading todo
  quiet : (c'.servers id).sends = []
  others : ∀ q, q ≠ id → q ≠ peer → c'.servers q = c.servers q

section Exchanges

variable {todo : List String} {s s' : Pair}
  (hside : id ∈ side) (hpeer : peer ∈ side) (hne : peer ≠ id)
include hside hpeer hne

/-- The peer serves the only call of a leader. -/
theorem exists_served {sv : Server} {request : Request} {reply : Reply} {node : Node}
    {disk : PersistentState}
    (hcall : Alone m side id c sv [{ caller := id, callee := peer, request := request }] c')
    (hstep : (c.servers peer).step (c.calls.length + 1) [] (.receive request) =
      some ({ (c.servers peer) with node := node, disk := disk }, { reply := some reply })) :
    ∃ c'', Continues m side c c'' ∧ c''.servers id = sv ∧
      c''.servers peer = { (c.servers peer) with node := node, disk := disk } ∧
      (∀ q, q ≠ id → q ≠ peer → c''.servers q = c.servers q) ∧
      c''.calls[c.calls.length]? = some { caller := id, callee := peer, request := request } ∧
      (c.calls.length, reply) ∈ c''.replies := by
  have hget : c'.calls[c.calls.length]? = some { caller := id, callee := peer, request := request } := by
    rw [hcall.calls, List.getElem?_append_right (Nat.le_refl _), Nat.sub_self]
    rfl
  have hfresh : c'.calls.length = c.calls.length + 1 := by
    rw [hcall.calls, List.length_append]
    rfl
  rw [← hfresh, ← hcall.path.others peer hne] at hstep
  obtain ⟨c'', hpath, hserver, hcalls, hreply⟩ := exists_delivered hget hside hpeer hstep
  refine ⟨c'', hcall.path.path.trans hpath.path, ?_, ?_, fun q hq hq' => ?_, ?_, hreply⟩
  · exact (hpath.others id hne.symm).trans hcall.server
  · exact hserver.trans (by rw [hcall.path.others peer hne])
  · exact (hpath.others q hq').trans (hcall.path.others q hq)
  · rw [hcalls]
    exact hget

/-- The leader asks for entries to be appended, and the answer is processed. -/
theorem exists_appended (hid : id ∈ m.ids) (hpresides : (c.servers id).Presiding todo) (hvisited : peer ∈ todo)
    {n n' n'' follower : Node} {d d' d'' followerDisk : PersistentState} {req : AppendEntriesRequest}
    {resp : AppendEntriesResponse} {signals : Node.Signals}
    (hskip : ((c.servers id).node.installSnapshotRequestForPeer peer).value (c.servers id).disk =
      some ((n, some none), d))
    (hsend : (n.appendEntriesRequestForPeer peer).value d = some ((n', some (some req)), d'))
    (hserve : ((c.servers peer).node.handleAppendEntries req).value (c.servers peer).disk =
      some ((follower, .ok resp), followerDisk))
    (hanswer : (n'.handleAppendEntriesResponse peer req resp).value d' = some ((n'', signals), d'')) :
    ∃ c', Exchanged m side c id peer (todo.erase peer)
      { leader := (if signals.replicate then (if signals.apply then n''.notifyApply else n'').signalReplicate
          else if signals.apply then n''.notifyApply else n'').finishSend peer
        leaderDisk := d''
        follower := follower
        followerDisk := followerDisk } c' := by
  obtain ⟨c₁, h₁⟩ := exists_appendCall hid hside hpresides hvisited hskip hsend
  have hreceive : (c.servers peer).step (c.calls.length + 1) [] (.receive (.append req)) =
      some ({ (c.servers peer) with node := follower, disk := followerDisk }, { reply := some (.append resp) }) :=
    congrArg some (Server.perform_of_value hserve rfl)
  obtain ⟨c₂, hpath₂, hleader₂, hpeer₂, hothers₂, hcall₂, hreply₂⟩ := exists_served hside hpeer hne h₁ hreceive
  have hread : (c₂.servers id).step c₂.calls.length [] (.appendAnswered c.calls.length resp) =
      some ({ (c.servers id) with
        node := n''
        main := .leading (todo.erase peer)
        sends := [newSend c peer (.signalling signals)]
        disk := d'' }, {}) := by
    have hsends : (c₂.servers id).sends = [newSend c peer (.waitingAppend req)] := by rw [hleader₂]
    have hfind : (c₂.servers id).findSend c.calls.length = some (newSend c peer (.waitingAppend req)) :=
      NodeProcess.findSend_of_single hsends
    simp only [Server.step, NodeProcess.plan, hfind, newSend, Option.map_some, Server.carryOut,
      NodeProcess.planAppendAnswered]
    rw [hleader₂]
    refine congrArg some (Server.perform_of_value hanswer ?_)
    exact congrArg (fun sends => (Server.mk { (c.servers id).toNodeProcess with
      node := _, main := .leading (todo.erase peer), sends := sends } _, _)) (NodeProcess.setPhase_single (newSend c peer _) _)
  obtain ⟨c₃, h₃⟩ := exists_answered hcall₂ hside hpeer hreply₂ hread
  obtain ⟨c₄, h₄⟩ := h₃.signal hid hside rfl rfl
  refine ⟨c₄, hpath₂.trans h₄.path.path, ?_, ?_, ?_, fun q hq hq' => ?_⟩
  · simp only [Cluster.pair, h₄.server, h₄.path.others peer hne, hpeer₂]
    rfl
  · rw [h₄.server]
  · rw [h₄.server]
  · rw [h₄.path.others q hq, hothers₂ q hq hq']

/-- The leader asks for its snapshot to be installed, and the answer is processed. -/
theorem exists_installed (hid : id ∈ m.ids) (hpresides : (c.servers id).Presiding todo) (hvisited : peer ∈ todo)
    {n n' follower : Node} {d d' followerDisk : PersistentState} {req : InstallSnapshotRequest}
    {resp : InstallSnapshotResponse}
    (hsend : ((c.servers id).node.installSnapshotRequestForPeer peer).value (c.servers id).disk =
      some ((n, some (some req)), d))
    (hserve : ((c.servers peer).node.handleInstallSnapshot req).value (c.servers peer).disk =
      some ((follower, .ok resp), followerDisk))
    (hanswer : (n.handleInstallSnapshotResponse peer req resp).value d = some (n', d')) :
    ∃ c', Exchanged m side c id peer (todo.erase peer)
      { leader := n'.finishSend peer
        leaderDisk := d'
        follower := follower
        followerDisk := followerDisk } c' := by
  obtain ⟨c₁, h₁⟩ := exists_installCall hid hside hpresides hvisited hsend
  have hreceive : (c.servers peer).step (c.calls.length + 1) [] (.receive (.install req)) =
      some ({ (c.servers peer) with node := follower, disk := followerDisk }, { reply := some (.install resp) }) :=
    congrArg some (Server.perform_of_value hserve rfl)
  obtain ⟨c₂, hpath₂, hleader₂, hpeer₂, hothers₂, hcall₂, hreply₂⟩ := exists_served hside hpeer hne h₁ hreceive
  have hread : (c₂.servers id).step c₂.calls.length [] (.installAnswered c.calls.length resp) =
      some ({ (c.servers id) with
        node := n'
        main := .leading (todo.erase peer)
        sends := [newSend c peer .finishing]
        disk := d' }, {}) := by
    have hsends : (c₂.servers id).sends = [newSend c peer (.waitingInstall req)] := by rw [hleader₂]
    have hfind : (c₂.servers id).findSend c.calls.length = some (newSend c peer (.waitingInstall req)) :=
      NodeProcess.findSend_of_single hsends
    simp only [Server.step, NodeProcess.plan, hfind, newSend, Option.map_some, Server.carryOut,
      NodeProcess.planInstallAnswered]
    rw [hleader₂]
    refine congrArg some (Server.perform_of_value hanswer ?_)
    exact congrArg (fun sends => (Server.mk { (c.servers id).toNodeProcess with
      node := _, main := .leading (todo.erase peer), sends := sends } _, _)) (NodeProcess.setPhase_single (newSend c peer _) _)
  obtain ⟨c₃, h₃⟩ := exists_answered hcall₂ hside hpeer hreply₂ hread
  obtain ⟨c₄, h₄⟩ := h₃.finish hid hside (newSend c peer .finishing) rfl rfl
  refine ⟨c₄, hpath₂.trans h₄.path.path, ?_, ?_, ?_, fun q hq hq' => ?_⟩
  · simp only [Cluster.pair, h₄.server, h₄.path.others peer hne, hpeer₂]
    rfl
  · rw [h₄.server]
  · rw [h₄.server]
  · rw [h₄.path.others q hq, hothers₂ q hq hq']

/-- What a leader and a peer exchange on their own, they can exchange in a cluster. -/
theorem exists_exchanged (hid : id ∈ m.ids) (hpresides : (c.servers id).Presiding todo) (hvisited : peer ∈ todo)
    {ex : Exchange} (hask : (c.pair id peer).ask peer = some (s, ex)) (hsettle : s.settle peer ex = some s') :
    ∃ c', Exchanged m side c id peer (todo.erase peer) s' c' := by
  unfold Pair.ask at hask
  split at hask
  · rename_i n req d hsend
    unfold Pair.install at hask
    split at hask
    · rename_i follower resp followerDisk hserve
      cases hask
      unfold Pair.settle at hsettle
      simp only at hsettle
      split at hsettle
      · rename_i n' d' hanswer
        cases hsettle
        exact exists_installed hside hpeer hne hid hpresides hvisited hsend hserve hanswer
      · cases hsettle
    · cases hask
  · rename_i n d hskip
    split at hask
    · rename_i n' req d' hsend
      unfold Pair.append at hask
      split at hask
      · rename_i follower resp followerDisk hserve
        cases hask
        unfold Pair.settle at hsettle
        simp only at hsettle
        split at hsettle
        · rename_i n'' signals d'' hanswer
          cases hsettle
          exact exists_appended hside hpeer hne hid hpresides hvisited hskip hsend hserve hanswer
        · cases hsettle
      · cases hask
    · cases hask
  · cases hask

end Exchanges

/-- What the leader of an undisturbed run can rely on: its snapshot is committed and at hand, and its next indices
point into its log or right behind it. -/
structure Node.Equipped (n : Node) : Prop where
  committed : n.snapshotIndex ≤ n.commitIndex
  held : n.snapshotIndex ≠ 0 → n.snapshot ≠ none
  low : ∀ p ∈ n.peers, 1 ≤ n.nextIndex p
  high : ∀ p ∈ n.peers, n.nextIndex p ≤ n.lastLogIndex + 1

/-- Leaders of undisturbed runs are equipped to send. -/
theorem equipped_of_undisturbed (run : ClusterReachable m Undisturbed c) (hid : id ∈ m.ids)
    (hleads : (c.servers id).node.role = .leader) : (c.servers id).node.Equipped := by
  obtain ⟨a, hinv, hrefines⟩ := logRefines_of_undisturbed run
  obtain ⟨_, _, _, hsound⟩ := progressSound_of_undisturbed run
  have hlog := (hrefines.servers id hid).log
  have hindex := hlog.logs.window.index
  have hcommit := hlog.logs.commit
  have hsnap := hinv.snap_le id
  refine ⟨by omega, hlog.logs.held, fun p hp => ?_, (hlog.leader hleads).next⟩
  rw [(hrefines.wired.servers id hid).placed.peers] at hp
  obtain ⟨hmember, hne⟩ := Membership.mem_peers.mp hp
  have htracks := hsound.leaders id hid hleads p hmember hne
  have := htracks.nonneg
  have := htracks.below
  omega

/-- A leader without a call to a peer can start one: with its snapshot or with entries. -/
theorem Node.Equipped.exists_request {n : Node} (h : n.Equipped) (hleads : n.role = .leader)
    (hidle : n.replicateInFlight peer = false) (hpeer : peer ∈ n.peers) (d : PersistentState) :
    (∃ req d', (n.installSnapshotRequestForPeer peer).value d = some ((n.sending peer, some (some req)), d')) ∨
      ∃ d', (n.installSnapshotRequestForPeer peer).value d = some ((n, some none), d') ∧
        ∃ req d'', (n.appendEntriesRequestForPeer peer).value d' = some ((n.sending peer, some (some req)), d'') := by
  have hlow := h.low peer hpeer
  have hidle' : n.replicateInFlight peer ≠ true := by simp [hidle]
  by_cases hskip : n.snapshotIndex < n.nextIndex peer
  · right
    have hnone : (n.installSnapshotRequestForPeer peer).Ensures False (fun _ => False)
        (fun r _ => r = (n, some none)) d :=
      installSnapshotRequestForPeer_rule (fun hne hnone => h.held hne hnone) (fun hrole => absurd hleads hrole)
        (fun _ _ => rfl) (fun _ hbusy => absurd hbusy hidle') fun _ _ hneed => absurd hskip (Int.not_lt.mpr hneed)
    obtain ⟨_, d', hvalue, rfl⟩ := hnone.value
    obtain ⟨req, hreq⟩ := exists_appendEntriesRequest hskip (h.high peer hpeer)
    have hmax : max 1 (n.nextIndex peer) = n.nextIndex peer := Int.max_eq_right hlow
    have hsend : (n.appendEntriesRequestForPeer peer).Ensures False (fun _ => False)
        (fun r _ => r = (n.sending peer, some (some req))) d' := by
      refine appendEntriesRequestForPeer_rule (fun _ _ hnone => ?_) (fun hrole => absurd hleads hrole)
        (fun _ hbusy => absurd hbusy hidle') fun _ _ req' hreq' => ?_
      · rw [hmax, hreq] at hnone
        cases hnone
      · rw [hmax, hreq] at hreq'
        cases hreq'
        rfl
    obtain ⟨_, d'', hvalue', rfl⟩ := hsend.value
    exact ⟨d', hvalue, req, d'', hvalue'⟩
  · left
    have hsend : (n.installSnapshotRequestForPeer peer).Ensures False (fun _ => False)
        (fun r _ => ∃ req, r = (n.sending peer, some (some req))) d :=
      installSnapshotRequestForPeer_rule (fun hne hnone => h.held hne hnone) (fun hrole => absurd hleads hrole)
        (fun _ hnot => by omega) (fun _ hbusy => absurd hbusy hidle') fun _ _ _ _ _ => ⟨_, rfl⟩
    obtain ⟨_, d', hvalue, req, rfl⟩ := hsend.value
    exact ⟨req, d', hvalue⟩

section Rounds

variable {todo : List String} (run : ClusterReachable m Undisturbed c) (hid : id ∈ m.ids) (hside : id ∈ side)
include run hid hside

/-- The main loop visits a peer, and the call comes to nothing. -/
theorem exists_visited {p : String} {rest : List String} (hpresides : (c.servers id).Presiding (p :: rest)) :
    ∃ c', SoloPath m side id c c' ∧ (c'.servers id).Presiding rest ∧
      (c.servers id).node.Reflagged (c'.servers id).node := by
  obtain ⟨a, _, hrefines⟩ := logRefines_of_undisturbed run
  have hwired := hrefines.wired.servers id hid
  have hpeer : p ∈ (c.servers id).node.peers := by
    have hmain := hwired.main
    rw [hpresides.main] at hmain
    rw [hwired.placed.peers]
    exact hmain p List.mem_cons_self
  have hequipped := equipped_of_undisturbed run hid hpresides.leads
  -- whatever is sent, the call fails and the goroutine ends
  have hfails : ∀ {calls c₁ d} {phase : SendPhase}, phase.waiting = true →
      Alone m side id c { (c.servers id) with
        node := (c.servers id).node.sending p
        main := .leading ((p :: rest).erase p)
        sends := [newSend c p phase]
        disk := d } calls c₁ →
      ∃ c', SoloPath m side id c c' ∧ (c'.servers id).Presiding rest ∧
        (c.servers id).node.Reflagged (c'.servers id).node := by
    intro calls c₁ d phase hwaiting h₁
    obtain ⟨c₂, h₂⟩ := h₁.fail hid hside rfl hwaiting
    refine ⟨c₂, h₂.path, ?_, ?_⟩
    · rw [h₂.server]
      obtain ⟨_, _, _, hflags⟩ := (c.servers id).node.reflagged_of_failed p
      refine ⟨?_, ?_, rfl, Node.idle_finishSend fun q hq => ?_⟩
      · change (((c.servers id).node.sending p).finishSend p).role = .leader
        rw [hflags]
        exact hpresides.leads
      · change MainLoop.leading ((p :: rest).erase p) = .leading rest
        rw [List.erase_cons_head]
      · exact (Function.update_of_ne hq ..).trans (hpresides.idle q)
    · rw [h₂.server]
      exact Node.reflagged_of_failed _ p
  rcases hequipped.exists_request hpresides.leads (hpresides.idle p) hpeer (c.servers id).disk with
    ⟨req, d, hvalue⟩ | ⟨d, hskip, req, d', hvalue⟩
  · obtain ⟨c₁, h₁⟩ := exists_installCall hid hside hpresides List.mem_cons_self hvalue
    exact hfails rfl h₁
  · obtain ⟨c₁, h₁⟩ := exists_appendCall hid hside hpresides List.mem_cons_self hskip hvalue
    exact hfails rfl h₁

/-- A round ends. -/
theorem exists_roundEnded (hpresides : (c.servers id).Presiding todo) :
    ∃ c', SoloPath m side id c c' ∧ (c'.servers id).Presiding [] ∧
      (c.servers id).node.Reflagged (c'.servers id).node := by
  induction todo generalizing c with
  | nil => exact ⟨c, .refl c, hpresides, .refl _⟩
  | cons p rest ih =>
    obtain ⟨c₁, hpath, hpresides₁, hflags⟩ := exists_visited run hid hside hpresides
    obtain ⟨c₂, hpath', hpresides₂, hflags'⟩ := ih (Continues.reachable hpath.path run) hpresides₁
    exact ⟨c₂, hpath.trans hpath', hpresides₂, hflags.trans hflags'⟩

/-- A leader between two rounds holds a round in which it reaches one peer alone. -/
theorem exists_round (hpresides : (c.servers id).Presiding []) (hpeer : peer ∈ (c.servers id).node.peers)
    (hpeerSide : peer ∈ side) {s s' : Pair} {ex : Exchange} (hask : (c.pair id peer).ask peer = some (s, ex))
    (hsettle : s.settle peer ex = some s') (hleads : s'.leader.role = .leader)
    (hidle : ∀ q, s'.leader.replicateInFlight q = false) :
    ∃ c', Continues m side c c' ∧ (c'.servers id).Presiding [] ∧ s'.leader.Reflagged (c'.servers id).node ∧
      (c'.servers peer).node = s'.follower ∧ ∀ q, q ≠ id → q ≠ peer → c'.servers q = c.servers q := by
  obtain ⟨a, _, hrefines⟩ := logRefines_of_undisturbed run
  have hne : peer ≠ id := by
    rw [(hrefines.wired.servers id hid).placed.peers] at hpeer
    exact (Membership.mem_peers.mp hpeer).2
  obtain ⟨c₁, h₁⟩ : ∃ c₁, Alone m side id c
      { (c.servers id) with main := .leading (c.servers id).node.peers } [] c₁ := by
    refine (Alone.refl m side id c).act hid hside (.startRound false) {} rfl rfl ?_ rfl
    simp only [Server.step, NodeProcess.plan, hpresides.main]
    rfl
  have hpresides₁ : (c₁.servers id).Presiding (c.servers id).node.peers := by
    rw [h₁.server]
    exact ⟨hpresides.leads, rfl, hpresides.quiet, hpresides.idle⟩
  have hpair : c₁.pair id peer = c.pair id peer := by
    simp only [Cluster.pair, h₁.server, h₁.path.others peer hne]
  obtain ⟨c₂, h₂⟩ := exists_exchanged hside hpeerSide hne hid hpresides₁ hpeer (hpair ▸ hask) hsettle
  have hleader₂ : (c₂.servers id).node = s'.leader := congrArg Pair.leader h₂.pair
  have hpath₂ : Continues m side c c₂ := h₁.path.path.trans h₂.path
  have hpresides₂ : (c₂.servers id).Presiding ((c.servers id).node.peers.erase peer) :=
    ⟨by rw [hleader₂]; exact hleads, h₂.main, h₂.quiet, by rw [hleader₂]; exact hidle⟩
  obtain ⟨c₃, hpath₃, hpresides₃, hflags⟩ := exists_roundEnded (hpath₂.reachable run) hid hside hpresides₂
  refine ⟨c₃, hpath₂.trans hpath₃.path, hpresides₃, hleader₂ ▸ hflags, ?_, fun q hq hq' => ?_⟩
  · rw [hpath₃.others peer hne]
    exact congrArg Pair.follower h₂.pair
  · rw [hpath₃.others q hq, h₂.others q hq hq', h₁.path.others q hq]

end Rounds

end ConsensusLab.Raft
