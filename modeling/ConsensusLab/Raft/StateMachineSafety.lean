import ConsensusLab.Raft.LogRefinement

/-!
# What the state machines of a cluster can rely on

Along every undisturbed run the command delivered at an index is the same wherever and
whenever it is delivered, a new leader holds what earlier leaders have committed, and
what a node has committed stays where it is until a snapshot covers it.
-/

namespace ConsensusLab.Raft

open Foundation

/-- Every message sent on an `applyCh` so far, with the node that sent it. -/
def Cluster.deliveries (c : Cluster) : List (String × ApplyMsg) :=
  c.trace.filterMap fun tr => tr.effects.delivered.map fun msg => (tr.id, msg)

/-- A leader moves its commit index and then covers the entry `e` at index `i`. -/
def Transition.Commits (tr : Transition) (i : Int) (e : LogEntry) : Prop :=
  tr.after.node.role = .leader ∧ tr.before.node.commitIndex < tr.after.node.commitIndex ∧
    tr.after.node.entryAt i = some e ∧ i ≤ tr.after.node.commitIndex

instance (tr : Transition) (i : Int) (e : LogEntry) : Decidable (tr.Commits i e) :=
  inferInstanceAs (Decidable (_ ∧ _ ∧ _ ∧ _))

/-- A node becomes a leader. -/
def Transition.Wins (tr : Transition) : Prop :=
  tr.before.node.role ≠ .leader ∧ tr.after.node.role = .leader

instance (tr : Transition) : Decidable tr.Wins :=
  inferInstanceAs (Decidable (_ ∧ _))

variable {m : Membership} {c : Cluster}

/-- Without a restriction every snapshot may be installed. -/
theorem installsPermitted_true (m : Membership) (c : Cluster) (act : Action) :
    InstallsPermitted m (fun _ _ _ => True) c act := by
  unfold InstallsPermitted Permitted
  intros
  trivial

/-- Every undisturbed run follows the replicated log, whatever snapshots are installed. -/
theorem logRefines_of_undisturbed (run : ClusterReachable m Undisturbed c) :
    ∃ a, LogInvariant m.quorums a ∧ LogRefines m c a := by
  obtain ⟨a, hrun, h⟩ := logRefines_of_reachable (fun _ _ hcalm => hcalm)
    (fun c act _ => installsPermitted_true m c act) run
  exact ⟨a, logInvariant_of_reachable hrun, h⟩

/-- What has been delivered is decided. -/
theorem LogRefines.delivered {a : RaftLog} (h : LogRefines m c a) {v : String} {cmd : Bytes} {i : Int}
    (hd : (v, .command cmd i) ∈ c.deliveries) : ∃ e, Decided a i e ∧ e.command = cmd := by
  obtain ⟨tr, htr, hmsg⟩ := List.mem_filterMap.mp hd
  obtain ⟨msg, hdelivered, hpair⟩ := Option.map_eq_some_iff.mp hmsg
  cases hpair
  exact (h.trace tr htr).delivered cmd i hdelivered

/-- **State machine safety.** Commands delivered at one index, by any nodes at any times, are equal. -/
theorem state_machine_safety (run : ClusterReachable m Undisturbed c) {v w : String} {cmd cmd' : Bytes}
    {i : Int} (hv : (v, .command cmd i) ∈ c.deliveries) (hw : (w, .command cmd' i) ∈ c.deliveries) :
    cmd = cmd' := by
  obtain ⟨a, hinv, h⟩ := logRefines_of_undisturbed run
  obtain ⟨e, he, rfl⟩ := h.delivered hv
  obtain ⟨e', he', rfl⟩ := h.delivered hw
  rw [he.unique hinv he']

/-- Node `a` wins the first term, replicates a command to both peers and tells `b` that it is
committed; `a` and `b` deliver it. -/
def commandDelivered : List Action :=
  electionOf "a" 0 1 ++ [.act "a" (.startCommand [7]) [], .act "a" (.startRound true) []] ++
    replicationOf "a" "b" 2 1 ++ replicationOf "a" "c" 3 1 ++ [.act "a" (.startRound true) []] ++
    replicationOf "a" "b" 4 1 ++ applicationBy "a" ++ applicationBy "b"

/-- Two nodes have delivered the same command at index 1. -/
theorem state_machine_safety_on_two_nodes :
    ∃ c, ClusterReachable threeNodes Undisturbed c ∧ ("a", .command [7] 1) ∈ c.deliveries ∧
      ("b", .command [7] 1) ∈ c.deliveries ∧ ([7] : Bytes) = [7] := by
  have hrun : ((Cluster.first threeNodes.ids).run threeNodes Undisturbed commandDelivered).map
      Cluster.deliveries = some [("b", .command [7] 1), ("a", .command [7] 1)] := by
    decide +kernel
  obtain ⟨c, hc, hdeliveries⟩ := exists_reachable_of_run hrun
  have ha : ("a", ApplyMsg.command [7] 1) ∈ c.deliveries := by
    rw [hdeliveries]
    decide
  have hb : ("b", ApplyMsg.command [7] 1) ∈ c.deliveries := by
    rw [hdeliveries]
    decide
  exact ⟨c, hc, ha, hb, state_machine_safety hc ha hb⟩

/-- A leader's log holds what was chosen in an earlier term: what it has added since its election is of
its own term, so the rest was there when it was elected. -/
theorem Elected.holds {a : RaftLog} {n : Node} (hinv : LogInvariant m.quorums a) (h : Elected a n)
    {t k j : ℕ} {whole : Entry} (hchosen : a.chosen t k) (hj : j ≤ k)
    (hwhole : (a.leaderLog t)[j]? = some whole) (hlater : (t : Int) < n.currentTerm) :
    ∃ (s : ℕ) (l : List Entry), n.Windows l s ∧ l[j]? = some whole := by
  obtain ⟨u, s, l, hterm, hled, hwindow, hlog, hstamp, _⟩ := h
  rw [hterm] at hlater
  have hheld : (a.leaderLog u)[j]? = some whole := by
    rw [hinv.completeness hchosen u hled (by omega) j (by omega), hwhole]
  have hold : whole.term ≤ t :=
    (hinv.leader_follows t (hinv.chosen_ok t k hchosen).1 j whole.term (Nat.zero_le _)
      (by rw [termAt, hwhole]; rfl)).1
  have hlt : j < l.length := by
    by_contra hge
    have := hstamp j whole.term (by omega) (by rw [termAt, hheld]; rfl)
    omega
  obtain ⟨more, hmore⟩ := hlog
  refine ⟨s, l, hwindow, ?_⟩
  rw [← hheld, ← hmore, List.getElem?_append_left hlt]

/-- **Leader completeness.** A node that becomes leader of a later term than one in which a leader
committed an entry holds that entry at its index, unless its snapshot covers it. -/
theorem leader_completeness (run : ClusterReachable m Undisturbed c) {tr tr' : Transition}
    (htr : tr ∈ c.trace) (htr' : tr' ∈ c.trace) {i : Int} {e : LogEntry} (hcommits : tr.Commits i e)
    (hwins : tr'.Wins) (hlater : tr.after.node.currentTerm < tr'.after.node.currentTerm) :
    tr'.after.node.entryAt i = some e ∨ (i ≤ tr'.after.node.snapshotIndex ∧
      ∃ snap, tr'.after.node.snapshot = some snap ∧ i ≤ snap.lastIncludedIndex) := by
  obtain ⟨a, hinv, h⟩ := logRefines_of_undisturbed run
  obtain ⟨hleads, hadvances, hentry, hcovered⟩ := hcommits
  obtain ⟨t, k, s, l, hterm, hchosen, hcommit, hwindow, hlog⟩ :=
    (h.trace tr htr).advanced hleads hadvances
  have helected := (h.trace tr' htr').elected hwins.1 hwins.2
  obtain ⟨j, whole, rfl, _, hwhole, rfl⟩ := hwindow.of_entryAt hentry
  obtain ⟨s', l', hwindow', hheld⟩ := helected.holds hinv hchosen (j := j) (by omega)
    (getElem?_of_initial hlog hwhole) (hterm ▸ hlater)
  by_cases hs : s' ≤ j
  · refine Or.inl ?_
    rw [hwindow'.entryAt hs, hheld]
    rfl
  · have hindex := hwindow'.index
    obtain ⟨_, _, _, _, _, _, _, _, hsnap⟩ := helected
    obtain ⟨snap, hsome, hcovers⟩ := hsnap (by omega)
    exact Or.inr ⟨by omega, snap, hsome, by omega⟩

/-- Node `a` commits a command in term 1, and `c` holds it when it wins term 2. -/
theorem leader_completeness_in_second_term :
    ∃ c, ClusterReachable threeNodes Undisturbed c ∧ ∃ tr ∈ c.trace, ∃ tr' ∈ c.trace,
      tr.Commits 1 { term := 1, type := entryCommand, command := [7] } ∧ tr'.Wins ∧
      (tr'.after.node.entryAt 1 = some { term := 1, type := entryCommand, command := [7] } ∨
        (1 ≤ tr'.after.node.snapshotIndex ∧
          ∃ snap, tr'.after.node.snapshot = some snap ∧ 1 ≤ snap.lastIncludedIndex)) := by
  have hrun : ((Cluster.first threeNodes.ids).run threeNodes Undisturbed
      (commandDelivered ++ electionOf "c" 5 2)).map
      (fun c => decide (∃ tr ∈ c.trace, ∃ tr' ∈ c.trace,
        tr.Commits 1 { term := 1, type := entryCommand, command := [7] } ∧ tr'.Wins ∧
        tr.after.node.currentTerm < tr'.after.node.currentTerm)) = some true := by
    decide +kernel
  obtain ⟨c, hc, hfacts⟩ := exists_reachable_of_run hrun
  obtain ⟨tr, htr, tr', htr', hcommits, hwins, hlater⟩ := of_decide_eq_true hfacts
  exact ⟨c, hc, tr, htr, tr', htr', hcommits, hwins,
    leader_completeness hc htr htr' hcommits hwins hlater⟩

/-- The indices of a node are in order. -/
theorem indices_ordered_of_undisturbed (run : ClusterReachable m Undisturbed c) {id : String} (hid : id ∈ m.ids) :
    (c.servers id).node.snapshotIndex ≤ (c.servers id).node.commitIndex ∧
      (c.servers id).node.commitIndex ≤ (c.servers id).node.lastLogIndex ∧
      (c.servers id).node.lastApplied ≤ (c.servers id).node.commitIndex := by
  obtain ⟨a, hinv, h⟩ := logRefines_of_undisturbed run
  have hlogs := (h.servers id hid).log.logs
  have hsnap := hinv.snap_le id
  have hcommit := hinv.commit_le id
  rw [hlogs.window.lastLogIndex, hlogs.commit, hlogs.window.index]
  exact ⟨by omega, by omega, hlogs.commit ▸ hlogs.applied⟩

/-- **The committed part of a log is immutable.** The indices of a node are ordered, they never
decrease between restarts, and no handler removes or changes a committed entry except by covering it
with a snapshot. -/
theorem committed_prefix_immutable (run : ClusterReachable m Undisturbed c) :
    (∀ id ∈ m.ids,
      (c.servers id).node.snapshotIndex ≤ (c.servers id).node.commitIndex ∧
      (c.servers id).node.commitIndex ≤ (c.servers id).node.lastLogIndex ∧
      (c.servers id).node.lastApplied ≤ (c.servers id).node.commitIndex) ∧
    (∀ tr ∈ c.trace, tr.input ≠ .restart → tr.effects.lost = none →
      tr.before.node.snapshotIndex ≤ tr.after.node.snapshotIndex ∧
      tr.before.node.commitIndex ≤ tr.after.node.commitIndex ∧
      tr.before.node.lastApplied ≤ tr.after.node.lastApplied) ∧
    ∀ tr ∈ c.trace, ∀ req, tr.input = .receive req → ∀ i e, tr.before.node.entryAt i = some e →
      i ≤ tr.before.node.commitIndex → tr.after.node.snapshotIndex < i →
      tr.after.node.entryAt i = some e := by
  obtain ⟨a, hinv, h⟩ := logRefines_of_undisturbed run
  refine ⟨fun id hid => indices_ordered_of_undisturbed run hid, fun tr htr hinput hkept => ?_,
    fun tr htr req hinput => ?_⟩
  · have hevolves := (h.trace tr htr).evolved hinput hkept
    exact ⟨hevolves.snapshotIndex, hevolves.commitIndex, hevolves.lastApplied⟩
  · exact ((h.trace tr htr).evolved (by rw [hinput]; nofun) (h.served tr htr req hinput)).kept

/-- After `a` has committed, applied and compacted a command, its indices are in order and move on. -/
theorem committed_prefix_immutable_after_compaction :
    ∃ c, ClusterReachable threeNodes Undisturbed c ∧ (c.servers "a").node.snapshotIndex = 1 ∧
      (c.servers "a").node.commitIndex ≤ (c.servers "a").node.lastLogIndex := by
  have hrun : ((Cluster.first threeNodes.ids).run threeNodes Undisturbed
      (commandDelivered ++ [.act "a" (.takeSnapshot 1 [9]) []])).map
      (fun c => (c.servers "a").node.snapshotIndex) = some 1 := by
    decide +kernel
  obtain ⟨c, hc, hsnap⟩ := exists_reachable_of_run hrun
  exact ⟨c, hc, hsnap, ((committed_prefix_immutable hc).1 "a" (by decide)).2.1⟩

end ConsensusLab.Raft
