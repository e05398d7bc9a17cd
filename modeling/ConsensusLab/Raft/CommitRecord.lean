import ConsensusLab.Raft.ApplyOrder
import ConsensusLab.Raft.StateMachineSafety

/-!
# Every committed entry is on record

Once an index is committed, or covered by a snapshot, some node has held its entry in its
log while the index was committed there. A snapshot can replace the entry later; the
record of the steps keeps it.
-/

namespace ConsensusLab.Raft

open Foundation

/-- A node holds an entry at an index that it has committed. -/
def Node.Commits (n : Node) (i : Int) (e : LogEntry) : Prop :=
  n.entryAt i = some e ∧ i ≤ n.commitIndex

/-- Some step has left a node with an entry at an index that it had committed. -/
def Cluster.OnRecord (c : Cluster) (i : Int) : Prop :=
  ∃ tr ∈ c.trace, ∃ e, tr.after.node.Commits i e

/-- What is committed and what snapshots cover is on record. -/
structure Cluster.CommitsOnRecord (m : Membership) (c : Cluster) : Prop where
  nodes : ∀ id ∈ m.ids, ∀ i, 1 ≤ i → i ≤ (c.servers id).node.commitIndex → c.OnRecord i
  snapshots : ∀ id ∈ m.ids, ∀ snap ∈ (c.servers id).snapshots, ∀ i, 1 ≤ i → i ≤ snap.lastIncludedIndex →
    c.OnRecord i
  calls : ∀ call ∈ c.calls, ∀ req, call.request = .install req → ∀ i, 1 ≤ i → i ≤ req.lastIncludedIndex →
    c.OnRecord i

variable {m : Membership} {c c' : Cluster}

/-- The record only grows. -/
theorem Cluster.OnRecord.mono {i : Int} (h : c.OnRecord i) (htrace : c.trace ⊆ c'.trace) : c'.OnRecord i := by
  obtain ⟨tr, htr, e, he⟩ := h
  exact ⟨tr, htrace htr, e, he⟩

/-- What a server has committed behind its snapshot is on record once the server is. -/
theorem LogRefines.onRecord {a : RaftLog} (h : LogRefines m c a) (hinv : LogInvariant m.quorums a) {id : String}
    (hid : id ∈ m.ids) {tr : Transition} (htr : tr ∈ c.trace) (hafter : tr.after = c.servers id) {i : Int}
    (hsnap : (c.servers id).node.snapshotIndex < i) (hcommit : i ≤ (c.servers id).node.commitIndex) :
    c.OnRecord i := by
  have hlogs := (h.servers id hid).log.logs
  have hindex := hlogs.window.index
  obtain ⟨j, rfl⟩ : ∃ j : ℕ, i = j + 1 := ⟨(i - 1).toNat, by omega⟩
  have hlt : j < (a.log id).length := by
    have := hinv.commit_le id
    rw [hlogs.commit] at hcommit
    omega
  refine ⟨tr, htr, ((a.log id).get ⟨j, hlt⟩).kept, ?_, by rw [hafter]; exact hcommit⟩
  rw [hafter, hlogs.window.entryAt (by omega), List.getElem?_eq_getElem hlt]
  rfl

/-- Every undisturbed step keeps the record complete. -/
theorem Cluster.CommitsOnRecord.step (h : c.CommitsOnRecord m) {a a' : RaftLog} (hlog : LogRefines m c a)
    (hlog' : LogRefines m c' a') (hinv' : LogInvariant m.quorums a') {act : Action} (hcalm : Undisturbed c act)
    (hstep : c.step m.ids act = some c') : c'.CommitsOnRecord m := by
  obtain ⟨id, input, served, after, effects, hsource, hmove, rfl⟩ := Cluster.step_cases hstep
  have hid := (hlog.wired.source hsource).1
  have hgrown : c.trace ⊆ (c.record id input served after effects).trace := List.subset_cons_self _ _
  have hbrings : ∀ snap, input.Brings snap → ∀ i, 1 ≤ i → i ≤ snap.lastIncludedIndex → c.OnRecord i := by
    intro snap hsnap i hlow hhigh
    rcases hsource.brings hsnap with ⟨call, hcall, req, hreq, rfl⟩ | ⟨fates, _, rfl⟩
    · exact h.calls call hcall req hreq i hlow hhigh
    · have happlied : snap.lastIncludedIndex ≤ (c.servers id).node.lastApplied := hcalm.2 (id, _) rfl
      have := (hlog.servers id hid).log.logs.applied
      exact h.nodes id hid i hlow (by omega)
  have hsnapshots : ∀ snap ∈ after.snapshots, ∀ i, 1 ≤ i → i ≤ snap.lastIncludedIndex →
      (c.record id input served after effects).OnRecord i := by
    intro snap hsnap i hlow hhigh
    rcases hmove.logMove.snapshots hsnap with hold | hnew
    · exact (h.snapshots id hid snap hold i hlow hhigh).mono hgrown
    · exact (hbrings snap hnew i hlow hhigh).mono hgrown
  refine ⟨fun other hother i hlow hhigh => ?_, fun other hother => ?_, fun call hcall req hreq i hlow hhigh => ?_⟩
  · by_cases heq : other = id
    · subst heq
      by_cases hsnap : ((c.record other input served after effects).servers other).node.snapshotIndex < i
      · exact hlog'.onRecord hinv' hother List.mem_cons_self (Cluster.record_servers_self ..).symm hsnap hhigh
      · -- the snapshot covers the index
        have hlogs := (hlog'.servers other hother).log.logs
        rw [Cluster.record_servers_self] at hsnap hlogs
        obtain ⟨snap, hsome⟩ := Option.ne_none_iff_exists'.mp (hlogs.held (by omega))
        have hindex := (hlogs.snapshot snap hsome).1
        exact hsnapshots snap (Server.mem_snapshots.mpr (Or.inl (Or.inl hsome))) i hlow (by omega)
    · rw [Cluster.record_servers_of_ne _ _ _ _ _ heq] at hhigh
      exact (h.nodes other hother i hlow hhigh).mono hgrown
  · by_cases heq : other = id
    · subst heq
      rw [Cluster.record_servers_self]
      exact hsnapshots
    · rw [Cluster.record_servers_of_ne _ _ _ _ _ heq]
      exact fun snap hsnap i hlow hhigh => (h.snapshots other hother snap hsnap i hlow hhigh).mono hgrown
  · rcases List.mem_append.mp hcall with hold | hnew
    · exact (h.calls call hold req hreq i hlow hhigh).mono hgrown
    · obtain ⟨⟨peer, request⟩, hstarted, rfl⟩ := List.mem_map.mp hnew
      obtain rfl : request = .install req := hreq
      have hheld := hmove.installs hstarted
      exact (h.snapshots id hid req.snapshot (Server.mem_snapshots.mpr (Or.inl (Or.inl hheld))) i hlow hhigh).mono
        hgrown

/-- A node over empty storage has nothing committed and no snapshots. -/
theorem boot_snapshots_empty (id : String) (peers : List String) (snap : Snapshot) :
    snap ∉ (Server.boot id peers .empty).snapshots := by
  have hnode : (Server.boot id peers .empty).node.snapshot = none := newNode_snapshot ..
  have hpending : (Server.boot id peers .empty).node.pendingSnapshot = none := newNode_pendingSnapshot ..
  intro hsnap
  rcases Server.mem_snapshots.mp hsnap with (h | h | h) | h
  · cases hnode.symm.trans h
  · cases hpending.symm.trans h
  · cases h
  · cases h

/-- In every undisturbed run what is committed and what snapshots cover is on record. -/
theorem commitsOnRecord_of_undisturbed (run : ClusterReachable m Undisturbed c) : c.CommitsOnRecord m := by
  refine run.invariant (P := fun c => c.CommitsOnRecord m) ?_ ?_
  · rintro c rfl
    refine ⟨fun id hid i hlow hhigh => ?_, fun id _ snap hsnap => absurd hsnap (boot_snapshots_empty _ _ snap),
      fun call hcall => absurd hcall List.not_mem_nil⟩
    have hcommit := ((logRefines_first m).servers id hid).log.logs.commit
    rw [hcommit] at hhigh
    exact absurd hhigh (by change ¬ i ≤ 0; omega)
  · rintro c c' run h ⟨act, hcalm, hstep⟩
    obtain ⟨a, _, hlog⟩ := logRefines_of_undisturbed run
    obtain ⟨a', hinv', hlog'⟩ := logRefines_of_undisturbed (.next run ⟨act, hcalm, hstep⟩)
    exact h.step hlog hlog' hinv' hcalm hstep

end ConsensusLab.Raft
