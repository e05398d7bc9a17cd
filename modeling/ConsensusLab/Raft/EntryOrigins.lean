import ConsensusLab.Raft.ApplyOrder
import ConsensusLab.Raft.StateMachineSafety

/-!
# Where entries come from

Consensus must not invent values. An entry is made in one place, by a leader that is
given a command; everything else copies entries, from a request into a log, from a log to
the disk and back, and from a log into a request. Storage may fail and processes may
crash anywhere: a command that was never acknowledged can come to be delivered, but not
one that no leader was given.
-/

namespace ConsensusLab.Raft

open Foundation

/-- A leader was given the command of this entry, in the term that the entry has. -/
def Cluster.Given (c : Cluster) (e : LogEntry) : Prop :=
  ∃ tr ∈ c.trace, tr.input = .startCommand e.command ∧ tr.before.node.role = .leader ∧
    tr.before.node.newEntry e.command = e

/-- The entry that the apply loop is about to deliver. -/
def ApplyLoop.entry : ApplyLoop → Option LogEntry
  | sendingEntry entry _ => some entry
  | parked | draining | sendingSnapshot _ | sentSnapshot _ | applying => none

/-- The entry is in the log, on the disk or in the apply loop of a process. -/
def Server.Has (sv : Server) (e : LogEntry) : Prop :=
  (e ∈ sv.node.log ∨ e ∈ sv.disk.log) ∨ sv.applier.entry = some e

/-- An input puts an entry before a node: a request carries it, or a leader is given its command. -/
inductive Input.Offers (n : Node) (e : LogEntry) : Input → Prop
  | request {req : AppendEntriesRequest} (he : e ∈ req.entries) : Offers n e (.receive (.append req))
  | command (hrole : n.role = .leader) (hentry : n.newEntry e.command = e) : Offers n e (.startCommand e.command)

variable {n : Node} {d : PersistentState} {sv : Server} {input : Input} {e : LogEntry}

/-- What an event leaves in the log or on the disk was in one of them or is offered. -/
theorem LogEvent.Arises.entries {ev : LogEvent} (h : ev.Arises n input)
    (he : e ∈ (ev.node n).log ∨ e ∈ (ev.disk n d).log) : (e ∈ n.log ∨ e ∈ d.log) ∨ input.Offers n e := by
  cases h with
  | none => exact Or.inl he
  | @append req held rest hsplit =>
    have hoffered : e ∈ rest → Input.Offers n e (.receive (.append req)) := by
      intro hrest
      apply Input.Offers.request
      rw [hsplit.entries]
      exact List.mem_append_right _ hrest
    simp only [LogEvent.node, LogEvent.disk, List.mem_append] at he
    grind
  | truncate =>
    exact Or.inl (he.imp List.mem_of_mem_take List.mem_of_mem_take)
  | @replace req held rest entry own hsplit =>
    have hoffered : e ∈ entry :: rest → Input.Offers n e (.receive (.append req)) := by
      intro hrest
      apply Input.Offers.request
      rw [hsplit.entries]
      exact List.mem_append_right _ hrest
    simp only [LogEvent.node, LogEvent.disk, List.mem_append] at he
    have htake : ∀ {k : ℕ} {l : List LogEntry}, e ∈ l.take k → e ∈ l := List.mem_of_mem_take
    grind
  | @install req stored =>
    have hkept : e ∈ (n.adoptSnapshot req.snapshot).log → e ∈ n.log := by
      rw [Node.adoptSnapshot_log]
      exact List.mem_of_mem_drop
    cases stored with
    | true => exact Or.inl (Or.inl (he.elim hkept hkept))
    | false => exact Or.inl (he.imp_left hkept)
  | @propose cmd hrole =>
    have hoffered : e ∈ [n.newEntry cmd] → Input.Offers n e (.startCommand cmd) := by
      intro hnew
      cases List.mem_singleton.mp hnew
      exact .command hrole rfl
    simp only [LogEvent.node, LogEvent.disk, List.mem_append] at he
    grind
  | @compact index data entry stored =>
    have hkept : e ∈ (n.compactTo (n.snapshotAt index entry data)).log → e ∈ n.log := List.mem_of_mem_drop
    cases stored with
    | true => exact Or.inl (Or.inl (he.elim hkept hkept))
    | false => exact Or.inl (he.imp_left hkept)

/-- Every entry of a process after a step was there before or is offered by the input. -/
theorem Server.LogMove.entries {result : Server × Effects} (hmove : sv.LogMove input result)
    (he : result.1.Has e) : sv.Has e ∨ input.Offers sv.node e := by
  cases hmove with
  | leads hleads happlier =>
    obtain ⟨ev, harises, hnode, hdisk⟩ := hleads
    simp only [Node.holding, PersistentState.files, Prod.mk.injEq] at hnode hdisk
    rw [Server.Has, hnode.2.2.1, hdisk.2.1, happlier] at he
    rcases he with hlogs | hhand
    · exact (harises.entries hlogs).imp Or.inl id
    · exact Or.inl (Or.inr hhand)
  | @lost _ disk _ hleaves =>
    obtain ⟨ev, harises, hdisk⟩ := hleaves
    simp only [PersistentState.files, Prod.mk.injEq] at hdisk
    -- a new node holds part of what the disk has
    have hstored : e ∈ disk.log := by
      rcases he with (hnode | hdisk) | hhand
      · have hlog : (sv.reboot disk).node.log = disk.log.drop _ := newNode_log ..
        rw [hlog] at hnode
        exact List.mem_of_mem_drop hnode
      · exact hdisk
      · cases hhand
    rw [hdisk.2.1] at hstored
    exact (harises.entries (Or.inr hstored)).imp Or.inl id
  | wakeApply | recordSnapshot | sendSnapshot | park | sendEntry =>
    exact Or.inl (Or.inl (he.resolve_right fun h => by cases h))
  | drain =>
    refine Or.inl (Or.inl (he.resolve_right fun h => ?_))
    simp only [NodeProcess.stepDrain, Node.takePendingSnapshot] at h
    cases hpending : sv.node.pendingSnapshot <;> rw [hpending] at h <;> cases h
  | pickEntry _ _ hentry =>
    rcases he with hlogs | hhand
    · exact Or.inl (Or.inl hlogs)
    · cases hhand
      exact Or.inl (Or.inl (Or.inl (List.mem_of_getElem? (Node.entryAt_eq_some hentry).2.2)))

/-- A delivered command is that of an entry of the process. -/
theorem Server.LogMove.delivered_command {result : Server × Effects} (hmove : sv.LogMove input result)
    {cmd : Bytes} {index : Int} (hmsg : result.2.delivered = some (.command cmd index)) :
    ∃ e, sv.Has e ∧ e.command = cmd := by
  cases hmove with
  | leads _ _ hdelivered | lost _ hdelivered =>
    rw [hdelivered] at hmsg
    cases hmsg
  | wakeApply | drain | sendSnapshot | recordSnapshot | park | pickEntry => cases hmsg
  | @sendEntry entry index happlier =>
    cases hmsg
    exact ⟨entry, Or.inr (by rw [happlier]; rfl), rfl⟩

/-- All entries of a cluster are of commands that leaders were given. -/
structure Cluster.Grounded (c : Cluster) : Prop where
  servers : ∀ id e, (c.servers id).Has e → c.Given e
  calls : ∀ call ∈ c.calls, ∀ req, call.request = .append req → ∀ e ∈ req.entries, c.Given e
  delivered : ∀ v cmd i, (v, .command cmd i) ∈ c.deliveries → ∃ e, c.Given e ∧ e.command = cmd

variable {c c' : Cluster}

/-- What was given stays given. -/
theorem Cluster.Given.mono (h : c.Given e) (htrace : c.trace ⊆ c'.trace) : c'.Given e := by
  obtain ⟨tr, htr, hgiven⟩ := h
  exact ⟨tr, htrace htr, hgiven⟩

/-- A request that a node serves was sent. -/
theorem Cluster.Source.received {members : List String} {a : Action} {id : String} {served : Option ℕ} {request : Request}
    (h : Source members c a id input served) (hinput : input = .receive request) :
    ∃ call ∈ c.calls, call.request = request := by
  cases h with
  | act _ hlocal =>
    subst hinput
    cases hlocal
  | deliver hcall => exact ⟨_, List.mem_of_getElem? hcall, Input.receive.inj hinput⟩
  | @answer _ _ reply => cases reply <;> cases hinput

/-- What a step offers was given before or is given with it. -/
theorem Cluster.Grounded.offered (h : c.Grounded) {members : List String} {a : Action} {id : String} {served : Option ℕ}
    {after : Server} {effects : Effects} (hsource : Source members c a id input served)
    (hoffers : input.Offers (c.servers id).node e) : (c.record id input served after effects).Given e := by
  cases hoffers with
  | request he =>
    obtain ⟨call, hcall, hreq⟩ := hsource.received rfl
    exact (h.calls call hcall _ hreq e he).mono (List.subset_cons_self _ _)
  | command hrole hentry =>
    exact ⟨_, List.mem_cons_self, rfl, hrole, hentry⟩

/-- Every step of a cluster, whatever becomes of its storage calls, keeps the cluster grounded. -/
theorem Cluster.Grounded.step (h : c.Grounded) {members : List String} {a : Action}
    (hstep : c.step members a = some c') : c'.Grounded := by
  obtain ⟨id, input, served, after, effects, hsource, hmove, rfl⟩ := Cluster.step_cases hstep
  have hgrown : c.trace ⊆ (c.record id input served after effects).trace := List.subset_cons_self _ _
  have hlog := hmove.logMove
  refine ⟨fun other e he => ?_, fun call hcall req hreq e he => ?_, fun v cmd i hdelivery => ?_⟩
  · by_cases hother : other = id
    · subst hother
      rw [Cluster.record_servers_self] at he
      rcases hlog.entries he with hold | hoffers
      · exact (h.servers other e hold).mono hgrown
      · exact h.offered hsource hoffers
    · rw [Cluster.record_servers_of_ne _ _ _ _ _ hother] at he
      exact (h.servers other e he).mono hgrown
  · rcases List.mem_append.mp hcall with hold | hnew
    · exact (h.calls call hold req hreq e he).mono hgrown
    · obtain ⟨⟨peer, request⟩, hstarted, rfl⟩ := List.mem_map.mp hnew
      obtain rfl : request = .append req := hreq
      cases hmove.sends hstarted with
      | append hbuilt =>
        have hhas : (c.servers id).Has e := Or.inl (Or.inl (Node.mem_of_appendEntriesRequest hbuilt he))
        exact (h.servers id e hhas).mono hgrown
  · obtain ⟨tr, htr, hmsg⟩ := List.mem_filterMap.mp hdelivery
    rcases List.mem_cons.mp htr with rfl | hold
    · obtain ⟨msg, hdelivered, hpair⟩ := Option.map_eq_some_iff.mp hmsg
      cases hpair
      obtain ⟨e, he, hcommand⟩ := hlog.delivered_command hdelivered
      exact ⟨e, (h.servers id e he).mono hgrown, hcommand⟩
    · obtain ⟨e, he, hcommand⟩ := h.delivered v cmd i (List.mem_filterMap.mpr ⟨tr, hold, hmsg⟩)
      exact ⟨e, he.mono hgrown, hcommand⟩

/-- A new cluster has no entries. -/
theorem Cluster.grounded_first (members : List String) : (Cluster.first members).Grounded where
  servers id e he := by
    have hlog : ((Cluster.first members).servers id).node.log = [] := newNode_log ..
    rcases he with (hnode | hdisk) | hhand
    · rw [hlog] at hnode
      cases hnode
    · cases hdisk
    · cases hhand
  calls call hcall := absurd hcall List.not_mem_nil
  delivered v cmd i hdelivery := absurd hdelivery List.not_mem_nil

/-- In every run of a cluster all entries are of commands that leaders were given. -/
theorem grounded_of_reachable {m : Membership} {allowed : Cluster → Action → Prop}
    (run : ClusterReachable m allowed c) : c.Grounded := by
  refine run.invariant ?_ ?_
  · rintro c rfl
    exact Cluster.grounded_first m.ids
  · rintro c c' _ h ⟨a, _, hstep⟩
    exact h.step hstep

/-- **Nothing is invented.** In every run of a cluster, whatever is allowed to fail and to crash, each entry in the log,
on the disk or in the apply loop of a node, each entry of a request that was ever sent and each command that was
ever delivered goes back to a command that a leader was given, in the term of the entry. -/
theorem nothing_is_invented {m : Membership} {allowed : Cluster → Action → Prop} (run : ClusterReachable m allowed c) :
    (∀ id e, (c.servers id).Has e → c.Given e) ∧
      (∀ call ∈ c.calls, ∀ req, call.request = .append req → ∀ e ∈ req.entries, c.Given e) ∧
      ∀ v cmd i, (v, .command cmd i) ∈ c.deliveries → ∃ e, c.Given e ∧ e.command = cmd :=
  have h := grounded_of_reachable run
  ⟨h.servers, h.calls, h.delivered⟩

/-- What node `b` delivers was given to node `a` as leader of term 1. -/
theorem nothing_is_invented_on_two_nodes :
    ∃ c, ClusterReachable threeNodes (fun _ _ => True) c ∧ ("b", .command [7] 1) ∈ c.deliveries ∧
      ∃ e, c.Given e ∧ e.command = [7] := by
  have hrun : ((Cluster.first threeNodes.ids).run threeNodes (fun _ _ => True) commandDelivered).map
      Cluster.deliveries = some [("b", .command [7] 1), ("a", .command [7] 1)] := by
    decide +kernel
  obtain ⟨c, hc, hdeliveries⟩ := exists_reachable_of_run hrun
  have hb : ("b", ApplyMsg.command [7] 1) ∈ c.deliveries := by
    rw [hdeliveries]
    decide
  exact ⟨c, hc, hb, (nothing_is_invented hc).2.2 "b" [7] 1 hb⟩

end ConsensusLab.Raft
