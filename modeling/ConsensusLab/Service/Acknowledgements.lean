import ConsensusLab.Service.CommittedStores

/-!
# Which writes are acknowledged

A call that waits for its index returns successfully once the service has applied as much,
whatever was applied there. If its node has lost its office in between, that can be
another leader's command. It is the call's own as long as the node is still the leader
that accepted the command, or still holds an entry of that leader's term at the index.
-/

namespace ConsensusLab.Raft

open Foundation

/-- A command that is appended is the last entry. -/
theorem Node.entryAt_appended (n : Node) (cmd : Bytes) :
    (n.appended cmd).entryAt (n.lastLogIndex + 1) = some (n.newEntry cmd) := by
  have hindex : (n.lastLogIndex + 1 - n.snapshotIndex - 1).toNat = n.log.length := by
    unfold Node.lastLogIndex
    omega
  have hlow : (n.appended cmd).snapshotIndex < n.lastLogIndex + 1 := by
    change n.snapshotIndex < n.snapshotIndex + n.log.length + 1
    omega
  rw [Node.entryAt_of_lt hlow]
  change (n.log ++ [n.newEntry cmd])[(n.lastLogIndex + 1 - n.snapshotIndex - 1).toNat]? = _
  rw [hindex, List.getElem?_concat_length]

/-- A node is the leader that it was, and holds a command at an index. -/
def Node.HasAccepted (n : Node) (cmd : Bytes) (index : Int) (n' : Node) : Prop :=
  n'.role = .leader ∧ n'.currentTerm = n.currentTerm ∧ n'.entryAt index = some (n.newEntry cmd)

/-- A command that `StartCommand` has accepted is held by the leader. -/
theorem Server.Move.accepted {sv : Server} {fresh : ℕ} {result : Server × Effects} {cmd : Bytes} {index : Int}
    (hmove : sv.Move fresh [] (.startCommand cmd) result) (haccepted : result.2.accepted = some index) :
    sv.node.HasAccepted cmd index result.1.node := by
  have hstarted : (sv.node.startCommand cmd).Ensures False (fun _ => True) (fun r _ => ∀ index,
      r.2 = some index → sv.node.HasAccepted cmd index r.1) sv.disk := by
    refine Node.startCommand_rule (fun _ => nofun) (fun _ _ => nofun) fun _ hrole =>
      Node.advanceCommitIndex_rule (fun _ => trivial) (fun index hindex => ?_)
        fun i hi => ⟨nofun, fun index hindex => ?_⟩
    all_goals
      cases hindex
      exact ⟨hrole, rfl, sv.node.entryAt_appended cmd⟩
  cases hmove
  revert haccepted
  exact Server.perform_rule (P := fun result => result.2.accepted = some index →
    sv.node.HasAccepted cmd index result.1.node) hstarted (Or.inr rfl) (fun r disk h => h index) fun _ _ _ => nofun

end ConsensusLab.Raft

namespace ConsensusLab.Service

open Foundation ConsensusLab.KV
open Raft (ApplyMsg Cluster Decided Entry LogMirror LogRefines Node PersistentState RaftLog Transition)

/-- The call's command was accepted by the leader of its term, at its index. -/
def Proposed (codec : Codec) (a : RaftLog) (w : Waiter) : Prop :=
  ∃ (t j : ℕ) (whole : Entry), w.term = t ∧ w.index = j + 1 ∧ a.Led t ∧ (a.leaderLog t)[j]? = some whole ∧
    whole.command = codec.marshalCommand w.command

/-- The node is still the leader that accepted the call's command, or still holds an entry of that
leader's term at the index. -/
def Vouches (n : Node) (w : Waiter) : Prop :=
  (n.role = .leader ∧ n.currentTerm = w.term) ∨ (n.entryAt w.index).map Raft.LogEntry.term = some w.term

instance (n : Node) (w : Waiter) : Decidable (Vouches n w) := inferInstanceAs (Decidable (_ ∨ _))

/-- A call returns successfully only while its node vouches for it. -/
def VouchedFor (sys : System) : SystemAction → Prop
  | .serve id (.check call) => ∀ w ∈ (sys.services id).findWaiter call, (sys.services id).Satisfied w →
      Vouches (sys.cluster.servers id).node w
  | _ => True

instance (sys : System) (act : SystemAction) : Decidable (VouchedFor sys act) := by
  unfold VouchedFor
  split <;> infer_instance

/-- The command decided at the index of a call is the call's own. -/
def Honoured (codec : Codec) (a : RaftLog) (w : Waiter) : Prop :=
  ∃ e, Decided a w.index e ∧ e.command = codec.marshalCommand w.command

variable {dep : Deployment} {codec : Codec} {sys sys' : System} {a a' : RaftLog} {w : Waiter}

/-- What was proposed stays proposed. -/
theorem Proposed.mono (h : Proposed codec a w) (hgrows : a.Grows a') : Proposed codec a' w := by
  obtain ⟨t, j, whole, hterm, hindex, hled, hwhole, hcommand⟩ := h
  exact ⟨t, j, whole, hterm, hindex, hgrows.toExtends.led t hled, hgrows.toExtends.entry hled hwhole, hcommand⟩

/-- What was honoured stays honoured. -/
theorem Honoured.mono (h : Honoured codec a w) (hinv : LogInvariant dep.members.quorums a)
    (hgrows : a.Grows a') : Honoured codec a' w := by
  obtain ⟨e, he, hcommand⟩ := h
  exact ⟨e, he.mono hinv hgrows, hcommand⟩

/-- The command of a call that its node vouches for is decided once its index is committed. -/
theorem Proposed.honoured {id : String} {n : Node} {d : PersistentState} (h : Proposed codec a w)
    (hinv : LogInvariant dep.members.quorums a) (hmirror : LogMirror a id n d)
    (hcommit : w.index ≤ n.commitIndex) (hvouches : Vouches n w) : Honoured codec a w := by
  obtain ⟨t, j, whole, hterm, hindex, hled, hwhole, hcommand⟩ := h
  rw [hindex, hmirror.logs.commit] at hcommit
  have hheld : (a.log id)[j]? = some whole := by
    rcases hvouches with ⟨hrole, hsame⟩ | hentry
    · have hoffice := hmirror.leader hrole
      have ht : a.term id = t := Int.ofNat_inj.mp (hmirror.ballots.term.symm.trans (hsame.trans hterm))
      rw [hinv.office_log id hoffice.standing, ht, hwhole]
    · obtain ⟨e, he, heterm⟩ := Option.map_eq_some_iff.mp hentry
      rw [hindex] at he
      obtain ⟨u, htermAt, hu⟩ := hmirror.logs.window.termAt_of_entryAt he
      obtain rfl : u = t := Int.ofNat_inj.mp (hu.symm.trans (heterm.trans hterm))
      have hsnap : a.snap id ≤ j := by
        have := (Raft.Node.entryAt_eq_some he).1
        rw [hmirror.logs.window.index] at this
        omega
      rw [(hinv.node_follows id j u hsnap htermAt).2.2 j hsnap le_rfl, hwhole]
  refine ⟨whole.kept, ?_, hcommand⟩
  rw [hindex]
  exact Raft.decided_of_committed hinv hheld (by omega)

/-- Two records of a call that proposed the same command, at the same index in the same term. -/
def Waiter.SameProposal (w w' : Waiter) : Prop :=
  w'.command = w.command ∧ w'.index = w.index ∧ w'.term = w.term

/-- Only the proposal of a call matters. -/
theorem Proposed.same {w' : Waiter} (h : Proposed codec a w) (hsame : w.SameProposal w') :
    Proposed codec a w' := by
  obtain ⟨hcommand, hindex, hterm⟩ := hsame
  rw [Proposed, hcommand, hindex, hterm]
  exact h

/-- Handling a message leaves the waiting calls as they are. -/
theorem KV.handleApply_waiters (codec : Codec) (s : KV) (msg : ApplyMsg) :
    (s.handleApply codec msg).waiters = s.waiters := by
  rcases s.handleApply_cases codec msg with hstopped | ⟨hwaiters, _⟩
  · rw [hstopped]
  · exact hwaiters

/-- A waiting call has been waiting, or enters with this step. -/
theorem KV.Move.waiters {s : KV} {e : Event} {result : KV × Option Waiter} (hmove : KV.Move codec s e result)
    {w' : Waiter} (hw' : w' ∈ result.1.waiters) :
    (∃ w ∈ s.waiters, w.SameProposal w') ∨ e = .wait w'.call w'.command w'.index w'.term := by
  have hold : w' ∈ s.waiters → ∃ w ∈ s.waiters, w.SameProposal w' := fun h => ⟨w', h, rfl, rfl, rfl⟩
  cases hmove with
  | apply msg =>
    rw [handleApply_waiters] at hw'
    exact Or.inl (hold hw')
  | notify | forget => exact Or.inl (hold hw')
  | snapshotTaken ok =>
    cases ok <;> exact Or.inl (hold hw')
  | wait =>
    rcases List.mem_cons.mp hw' with rfl | hmem
    · exact Or.inr rfl
    · exact Or.inl (hold hmem)
  | acknowledge | expire => exact Or.inl (hold (List.mem_of_mem_erase hw'))
  | park hw =>
    rcases List.mem_cons.mp hw' with rfl | hmem
    · exact Or.inl ⟨_, hw, rfl, rfl, rfl⟩
    · exact Or.inl (hold (List.mem_of_mem_erase hmem))
  | wake hfind =>
    rcases List.mem_cons.mp hw' with rfl | hmem
    · exact Or.inl ⟨_, (findWaiter_some hfind).1, rfl, rfl, rfl⟩
    · exact Or.inl (hold (List.mem_of_mem_erase hmem))

/-- A call returns when it reads that its index has been applied. -/
theorem KV.Move.returned {s s' : KV} {e : Event} (hmove : KV.Move codec s e (s', some w)) :
    e = .check w.call ∧ s.findWaiter w.call = some w ∧ s.Satisfied w := by
  cases hmove with
  | acknowledge hfind hsatisfied => exact ⟨rfl, hfind, hsatisfied⟩

/-- A call waits at a service after a service's step if it did before or enters. -/
theorem System.serve_waiters {id other : String} {event : Event} (h : sys.serve dep id event = some sys')
    {w' : Waiter} (hw' : w' ∈ (sys'.services other).waiters) :
    (∃ w ∈ (sys.services other).waiters, w.SameProposal w') ∨
      (other = id ∧ event = .wait w'.call w'.command w'.index w'.term) := by
  obtain ⟨⟨s, returned⟩, hstep, rfl⟩ := Option.map_eq_some_iff.mp h
  by_cases heq : other = id
  · subst heq
    simp only [Function.update_self] at hw'
    exact ((KV.Move.of_step hstep).waiters hw').imp id fun hwait => ⟨rfl, hwait⟩
  · simp only [Function.update_of_ne heq] at hw'
    exact Or.inl ⟨w', hw', rfl, rfl, rfl⟩

/-- Following a step of a node, no call begins to wait. -/
theorem System.follow_waiters {c : Cluster} {tr : Transition} {id : String}
    (hw : w ∈ ((sys.follow dep c tr).services id).waiters) : w ∈ (sys.services id).waiters := by
  unfold System.follow at hw
  split at hw
  · by_cases heq : id = tr.id
    · subst heq
      simp only [Function.update_self] at hw
      cases hw
    · simpa only [Function.update_of_ne heq] using hw
  · exact hw

/-- A step of the nodes lets no call begin to wait. -/
theorem System.advance_waiters {action : Raft.Action} {tr : Transition} {id : String}
    (h : sys.advance dep action = some (sys', tr)) (hw : w ∈ (sys'.services id).waiters) :
    w ∈ (sys.services id).waiters := by
  obtain ⟨_, _, _, _, _, _, rfl⟩ := System.advance_cases h
  exact System.follow_waiters hw

/-- A step of the nodes acknowledges nothing. -/
theorem System.advance_acknowledged {action : Raft.Action} {tr : Transition}
    (h : sys.advance dep action = some (sys', tr)) : sys'.acknowledged = sys.acknowledged := by
  obtain ⟨_, _, _, _, _, _, rfl⟩ := System.advance_cases h
  unfold System.follow
  split <;> rfl

/-- A service's step acknowledges a call that reads that its index has been applied. -/
theorem System.serve_acknowledged {id : String} {event : Event} (h : sys.serve dep id event = some sys')
    {p : String × Waiter} (hp : p ∈ sys'.acknowledged) :
    p ∈ sys.acknowledged ∨ (p.1 = id ∧ event = .check p.2.call ∧
      (sys.services id).findWaiter p.2.call = some p.2 ∧ (sys.services id).Satisfied p.2) := by
  obtain ⟨⟨s, returned⟩, hstep, rfl⟩ := Option.map_eq_some_iff.mp h
  rcases List.mem_append.mp hp with hnew | hold
  · obtain ⟨w, hw, rfl⟩ := List.mem_map.mp hnew
    obtain rfl : returned = some w := Option.mem_toList.mp hw
    exact Or.inr ⟨rfl, (KV.Move.of_step hstep).returned⟩
  · exact Or.inl hold

/-- A call waits after a step of the system if it did before, or its command has just been accepted. -/
theorem System.Turn.waiters {act : SystemAction} (hturn : System.Turn dep sys act sys') {id : String}
    {w' : Waiter} (hw' : w' ∈ (sys'.services id).waiters) :
    (∃ w ∈ (sys.services id).waiters, w.SameProposal w') ∨
      ∃ fates sys₁ tr, act = .propose id w'.call w'.command fates ∧
        sys.advance dep (.act id (.startCommand (dep.codec.marshalCommand w'.command)) fates) =
          some (sys₁, tr) ∧ tr.effects.accepted = some w'.index ∧ w'.term = tr.before.node.currentTerm ∧
        sys'.cluster = sys₁.cluster := by
  -- the nodes move first, and then possibly a service, by which a call enters only with `wait`
  have hadvanced : ∀ {action sys₁ tr}, sys.advance dep action = some (sys₁, tr) →
      ∀ w₁ ∈ (sys₁.services id).waiters, w₁ ∈ (sys.services id).waiters :=
    fun hadvance _ => System.advance_waiters hadvance
  have hserved : ∀ {sys₁ : System} {id' event}, sys₁.serve dep id' event = some sys' →
      (∀ w₁ ∈ (sys₁.services id).waiters, w₁ ∈ (sys.services id).waiters) →
      event ≠ .wait w'.call w'.command w'.index w'.term →
      ∃ w ∈ (sys.services id).waiters, w.SameProposal w' := by
    intro sys₁ id' event hserve hback hevent
    rcases System.serve_waiters hserve hw' with ⟨w, hw, hsame⟩ | ⟨_, hwait⟩
    · exact ⟨w, hback w hw, hsame⟩
    · exact absurd hwait hevent
  cases hturn with
  | raft _ hadvance => exact Or.inl ⟨w', hadvanced hadvance w' hw', rfl, rfl, rfl⟩
  | @propose id' call command fates sys₁ _ tr hadvance hwait =>
    rcases hwait with ⟨_, rfl⟩ | ⟨index, haccepted, hserve⟩
    · exact Or.inl ⟨w', hadvanced hadvance w' hw', rfl, rfl, rfl⟩
    · rcases System.serve_waiters hserve hw' with ⟨w, hw, hsame⟩ | ⟨rfl, hevent⟩
      · exact Or.inl ⟨w, hadvanced hadvance w hw, hsame⟩
      · obtain ⟨rfl, rfl, rfl, hterm⟩ := Event.wait.inj hevent
        exact Or.inr ⟨fates, sys₁, tr, rfl, hadvance, haccepted, hterm.symm, System.serve_cluster hserve⟩
  | receive _ hserve => exact Or.inl (hserved hserve (fun _ hw => hw) nofun)
  | snapshot _ hadvance hreturn =>
    rcases hreturn with ⟨_, rfl⟩ | hserve
    · exact Or.inl ⟨w', hadvanced hadvance w' hw', rfl, rfl, rfl⟩
    · exact Or.inl (hserved hserve (hadvanced hadvance) nofun)
  | serve hlocal hserve =>
    refine Or.inl (hserved hserve (fun _ hw => hw) fun hevent => ?_)
    subst hevent
    cases hlocal

/-- A step of the system acknowledges a call that reads that its index has been applied. -/
theorem System.Turn.acknowledged {act : SystemAction} (hturn : System.Turn dep sys act sys')
    {p : String × Waiter} (hp : p ∈ sys'.acknowledged) :
    p ∈ sys.acknowledged ∨ (act = .serve p.1 (.check p.2.call) ∧
      (sys.services p.1).findWaiter p.2.call = some p.2 ∧ (sys.services p.1).Satisfied p.2) := by
  have hserved : ∀ {sys₁ : System} {id event}, sys₁.serve dep id event = some sys' →
      sys₁.acknowledged = sys.acknowledged → event ≠ .check p.2.call → p ∈ sys.acknowledged := by
    intro sys₁ id event hserve hsame hevent
    rcases System.serve_acknowledged hserve hp with hold | ⟨_, hcheck, _⟩
    · exact hsame ▸ hold
    · exact absurd hcheck hevent
  cases hturn with
  | raft _ hadvance => exact Or.inl (System.advance_acknowledged hadvance ▸ hp)
  | propose hadvance hwait =>
    rcases hwait with ⟨_, rfl⟩ | ⟨index, _, hserve⟩
    · exact Or.inl (System.advance_acknowledged hadvance ▸ hp)
    · exact Or.inl (hserved hserve (System.advance_acknowledged hadvance) nofun)
  | receive _ hserve => exact Or.inl (hserved hserve rfl nofun)
  | snapshot _ hadvance hreturn =>
    rcases hreturn with ⟨_, rfl⟩ | hserve
    · exact Or.inl (System.advance_acknowledged hadvance ▸ hp)
    · exact Or.inl (hserved hserve (System.advance_acknowledged hadvance) nofun)
  | serve _ hserve =>
    rcases System.serve_acknowledged hserve hp with hold | ⟨rfl, rfl, hfind, hsatisfied⟩
    · exact Or.inl hold
    · exact Or.inr ⟨rfl, hfind, hsatisfied⟩

/-- The system follows the replicated log, waiting calls have proposed what they say, and acknowledged
calls are honoured. -/
structure System.Honest (dep : Deployment) (sys : System) (a : RaftLog) : Prop extends sys.Follows dep a where
  waiters : ∀ id, ∀ w ∈ (sys.services id).waiters, id ∈ dep.members.ids ∧ Proposed dep.codec a w
  acknowledged : ∀ p ∈ sys.acknowledged, Honoured dep.codec a p.2

/-- A command that a leader holds in the term in which it accepted it is proposed. -/
theorem Proposed.of_accepted {id : String} {n n' : Node} {d : PersistentState}
    (h : n.HasAccepted (codec.marshalCommand w.command) w.index n') (hmirror : LogMirror a id n' d)
    (hinv : LogInvariant dep.members.quorums a) (hterm : w.term = n.currentTerm) : Proposed codec a w := by
  obtain ⟨hrole, hsame, hentry⟩ := h
  obtain ⟨j, whole, hindex, _, hwhole, hkept⟩ := hmirror.logs.window.of_entryAt hentry
  have hoffice := hmirror.leader hrole
  refine ⟨a.term id, j, whole, ?_, hindex, hoffice.led hinv, ?_, ?_⟩
  · rw [hterm, ← hsame, hmirror.ballots.term]
  · rw [← hinv.office_log id hoffice.standing, hwhole]
  · exact (congrArg Raft.LogEntry.command hkept).symm

/-- A command that has just been accepted is proposed. -/
theorem Proposed.of_advance (h : LogRefines dep.members sys'.cluster a) (hinv : LogInvariant dep.members.quorums a)
    {id : String} {tr : Transition}
    (hadvance : sys.advance dep (.act id (.startCommand (dep.codec.marshalCommand w.command)) []) =
      some (sys', tr)) (haccepted : tr.effects.accepted = some w.index)
    (hterm : w.term = tr.before.node.currentTerm) : Proposed dep.codec a w := by
  have hid := System.mem_of_advance hadvance
  obtain ⟨input, served, hsource, hmove, _, htr, rfl⟩ := System.advance_cases hadvance
  have hmirror := (h.servers id hid).log
  rw [System.follow_cluster] at hmirror
  rw [htr] at hterm
  generalize hself : tr.id = self at *
  cases hsource with
  | act =>
    rw [Cluster.record_servers_self] at hmirror
    exact Proposed.of_accepted (hmove.accepted haccepted) hmirror hinv hterm

/-- Every step that storage lets succeed, and in which only calls that are vouched for return, keeps the
system honest. -/
theorem System.Honest.step (h : sys.Honest dep a)
    (arun : Reachable LogState.First (LogStep dep.members.quorums fun _ _ _ => True) a)
    {act : SystemAction} (hcalm : StorageSucceeds sys act) (hvouched : VouchedFor sys act)
    (hstep : sys.step dep act = some sys') :
    ∃ a', Relation.ReflTransGen (LogStep dep.members.quorums fun _ _ _ => True) a a' ∧ sys'.Honest dep a' := by
  obtain ⟨a', path, h'⟩ := h.toFollows.step arun hcalm hstep
  have hinv := logInvariant_of_reachable arun
  have hinv' := logInvariant_of_reachable (arun.trans path)
  have hgrows := LogState.Grows.of_path arun path
  have hturn := System.Turn.of_step hstep
  refine ⟨a', path, h', fun id w' hw' => ?_, fun p hp => ?_⟩
  · rcases hturn.waiters hw' with ⟨w, hw, hsame⟩ | ⟨fates, sys₁, tr, rfl, hadvance, haccepted, hterm, hcluster⟩
    · obtain ⟨hid, hproposed⟩ := h.waiters id w hw
      exact ⟨hid, (hproposed.mono hgrows).same hsame⟩
    · obtain rfl : fates = [] := hcalm
      have hlog := h'.log
      rw [hcluster] at hlog
      exact ⟨System.mem_of_advance hadvance, Proposed.of_advance hlog hinv' hadvance haccepted hterm⟩
  · rcases hturn.acknowledged hp with hold | ⟨rfl, hfind, hsatisfied⟩
    · exact (h.acknowledged p hold).mono hinv hgrows
    · obtain ⟨hid, hproposed⟩ := h.waiters p.1 p.2 (KV.findWaiter_some hfind).1
      have hvouches := hvouched p.2 hfind hsatisfied
      have hcommit := hsatisfied.trans (h.processes p.1 hid).committed
      have hhonoured := hproposed.honoured hinv (h.log.servers p.1 hid).log hcommit hvouches
      exact hhonoured.mono hinv hgrows

/-- Storage works, and calls return only while their nodes vouch for them. -/
def Answerable (sys : System) (act : SystemAction) : Prop := StorageSucceeds sys act ∧ VouchedFor sys act

instance (sys : System) (act : SystemAction) : Decidable (Answerable sys act) :=
  inferInstanceAs (Decidable (_ ∧ _))

/-- An answerable run is one in which storage works. -/
theorem storageSucceeds_of_answerable (run : SystemReachable dep Answerable sys) :
    SystemReachable dep StorageSucceeds sys := by
  refine run.mono fun sys sys' hstep => ?_
  obtain ⟨act, hanswerable, hnext⟩ := hstep
  exact ⟨act, hanswerable.1, hnext⟩

/-- Every state that answerable runs reach is honest. -/
theorem System.honest_of_reachable (run : SystemReachable dep Answerable sys) :
    ∃ a, Reachable LogState.First (LogStep dep.members.quorums fun _ _ _ => True) a ∧ sys.Honest dep a := by
  refine run.simulate ?_ ?_
  · rintro sys rfl
    refine ⟨Raft.firstLog, Raft.firstLog_first, System.follows_first dep, fun id w hw => ?_, fun p hp => ?_⟩
    · exact absurd hw List.not_mem_nil
    · exact absurd hp List.not_mem_nil
  · rintro sys sys' a arun h ⟨act, hanswerable, hstep⟩
    exact h.step arun hanswerable.1 hanswerable.2 hstep

/-- The index of an acknowledged call is committed on record. -/
theorem System.acknowledged_onRecord (run : SystemReachable dep Answerable sys) :
    ∀ p ∈ sys.acknowledged, sys.cluster.OnRecord p.2.index := by
  refine run.invariant (P := fun sys => ∀ p ∈ sys.acknowledged, sys.cluster.OnRecord p.2.index) ?_ ?_
  · rintro sys rfl p hp
    exact absurd hp List.not_mem_nil
  · rintro sys sys' run ih ⟨act, hanswerable, hstep⟩ p hp
    obtain ⟨a, _, h⟩ := System.honest_of_reachable run
    have hgrown : sys.cluster.trace ⊆ sys'.cluster.trace := by
      rcases h.toFollows.cluster_step hanswerable.1 hstep with hsame | ⟨action, _, hnext⟩
      · rw [hsame]
        exact List.Subset.refl _
      · obtain ⟨id, input, served, after, effects, _, _, hrecord⟩ := Cluster.step_cases hnext
        rw [hrecord]
        exact List.subset_cons_self _ _
    rcases (System.Turn.of_step hstep).acknowledged hp with hold | ⟨_, hfind, hsatisfied⟩
    · exact (ih p hold).mono hgrown
    · obtain ⟨hid, _, j, _, _, hindex, _⟩ := h.waiters p.1 p.2 (KV.findWaiter_some hfind).1
      have hcommit := hsatisfied.trans (h.processes p.1 hid).committed
      have hrecord := Raft.commitsOnRecord_of_undisturbed
        (System.undisturbed (storageSucceeds_of_answerable run))
      exact (hrecord.nodes p.1 hid p.2.index (by omega) hcommit).mono hgrown

/-- **An acknowledged write is the applied write.** In every run in which storage works and calls return only
while their nodes vouch for them, the command of an acknowledged call has been committed at its index, and
no node ever commits or delivers another one there. -/
theorem acknowledged_write_is_applied (run : SystemReachable dep Answerable sys) {id : String}
    (hack : (id, w) ∈ sys.acknowledged) :
    sys.cluster.OnRecord w.index ∧
      (∀ tr ∈ sys.cluster.trace, ∀ e, tr.after.node.Commits w.index e →
        e.command = dep.codec.marshalCommand w.command) ∧
      ∀ v cmd, (v, .command cmd w.index) ∈ sys.cluster.deliveries →
        cmd = dep.codec.marshalCommand w.command := by
  obtain ⟨a, arun, h⟩ := System.honest_of_reachable run
  have hinv := logInvariant_of_reachable arun
  obtain ⟨own, hown, hcommand⟩ := h.acknowledged (id, w) hack
  refine ⟨System.acknowledged_onRecord run (id, w) hack, fun tr htr e he => ?_, fun v cmd hdelivery => ?_⟩
  · rw [(h.recorded tr htr w.index e he).unique hinv hown]
    exact hcommand
  · obtain ⟨e, he, rfl⟩ := h.log.delivered hdelivery
    rw [he.unique hinv hown]
    exact hcommand

/-- Node `a` applies the value that was put through it, and the call returns. -/
theorem acknowledged_write_is_applied_at_leader :
    ∃ sys w, SystemReachable threeProcesses Answerable sys ∧ ("a", w) ∈ sys.acknowledged ∧
      w.command = putCommand "x" "1" ∧ sys.cluster.OnRecord w.index ∧
      ∀ v cmd, (v, .command cmd w.index) ∈ sys.cluster.deliveries →
        cmd = jsonCodec.marshalCommand (putCommand "x" "1") := by
  have hrun : (execute Answerable (System.step threeProcesses) (System.first threeProcesses)
      (putCommitted ++ (Raft.applicationBy "a").map .raft ++
        [.receive "a", .serve "a" .notify, .serve "a" (.check 1)])).map System.acknowledged =
      some [("a", ⟨1, putCommand "x" "1", 1, 1, false⟩)] := by
    decide +kernel
  obtain ⟨sys, hsys, hacknowledged⟩ := exists_systemReachable_of_execute hrun
  have hack : ("a", ⟨1, putCommand "x" "1", 1, 1, false⟩) ∈ sys.acknowledged := by
    rw [hacknowledged]
    exact List.mem_singleton_self _
  obtain ⟨honrecord, _, hdelivered⟩ := acknowledged_write_is_applied hsys hack
  exact ⟨sys, _, hsys, hack, rfl, honrecord, hdelivered⟩

/-- Node `a` accepts a put as leader of term 1. Node `b` wins term 2 and has a delete committed at the same
index, which node `a` then applies. -/
def overwrittenBeforeReturn : List SystemAction :=
  (Raft.electionOf "a" 0 1).map .raft ++ [.propose "a" 1 (putCommand "x" "1") [], .serve "a" (.check 1)] ++
    (Raft.electionOf "b" 3 2).map .raft ++
    [.propose "b" 2 (deleteCommand "x") [], .raft (.act "b" (.startRound true) [])] ++
    (Raft.replicationOf "b" "c" 4 2 ++ Raft.replicationOf "b" "a" 5 2 ++ Raft.applicationBy "a").map .raft ++
    [.receive "a", .serve "a" .notify, .serve "a" (.wake 1), .serve "a" (.check 1)]

/-- The put is acknowledged with the index at which the delete was delivered. -/
theorem put_acknowledged_for_other_delete :
    ∃ sys, SystemReachable threeProcesses StorageSucceeds sys ∧
      ("a", ⟨1, putCommand "x" "1", 1, 1, false⟩) ∈ sys.acknowledged ∧
      ("a", .command (jsonCodec.marshalCommand (deleteCommand "x")) 1) ∈ sys.cluster.deliveries ∧
      jsonCodec.marshalCommand (deleteCommand "x") ≠ jsonCodec.marshalCommand (putCommand "x" "1") := by
  have hrun : (execute StorageSucceeds (System.step threeProcesses) (System.first threeProcesses)
      overwrittenBeforeReturn).map (fun sys => (sys.acknowledged, sys.cluster.deliveries)) =
      some ([("a", ⟨1, putCommand "x" "1", 1, 1, false⟩)],
        [("a", .command (jsonCodec.marshalCommand (deleteCommand "x")) 1)]) := by
    decide +kernel
  obtain ⟨sys, hsys, hfacts⟩ := exists_systemReachable_of_execute hrun
  obtain ⟨hacknowledged, hdeliveries⟩ := Prod.mk.inj hfacts
  refine ⟨sys, hsys, ?_, ?_, by decide +kernel⟩
  · rw [hacknowledged]
    exact List.mem_singleton_self _
  · rw [hdeliveries]
    exact List.mem_singleton_self _

end ConsensusLab.Service
