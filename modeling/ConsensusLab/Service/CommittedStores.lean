import ConsensusLab.KV.Encoding
import ConsensusLab.Service.StoreReplay
import ConsensusLab.Raft.CommitRecord

/-!
# Every store of a system follows the committed log

The processes of a system are followed through every action: of the nodes and the network,
of the services, and the calls between them. A service asks its node to compact only
what the node has delivered, so the nodes run undisturbed and follow the replicated log.
-/

namespace ConsensusLab.Raft

open Foundation

/-- The apply loop of a node holds snapshots that the node's log starts behind. -/
theorem ServerLog.snapshotsHeld {a : RaftLog} {id : String} {sv : Server}
    (h : ServerLog a id sv) : sv.SnapshotsHeld := by
  refine ⟨h.log.logs.pending, fun snap hsnap => ?_⟩
  have happlier := h.applier
  cases hphase : sv.applier with
  | sendingSnapshot | sentSnapshot =>
    rw [hphase] at hsnap happlier
    cases hsnap
    exact happlier
  | parked | draining | applying | sendingEntry =>
    rw [hphase] at hsnap
    cases hsnap

/-- What is decided is in the committed log. -/
theorem Decided.committed {m : Membership} {a : RaftLog} {i : Int} {e : LogEntry} (h : Decided a i e)
    (hinv : LogInvariant m.quorums a) {l : List Entry} (hl : a.CommittedLog l) :
    (l.map Entry.kept)[(i - 1).toNat]? = some e := by
  obtain ⟨t, k, j, whole, hchosen, hj, rfl, hwhole, rfl⟩ := h
  obtain ⟨hled, _, hcommit, _⟩ := hinv.chosen_ok t k hchosen
  rw [show ((j : Int) + 1 - 1).toNat = j by omega, List.getElem?_map, ← (hl.leaders t hled).2 j (by omega), hwhole]
  rfl

/-- A list of which all that any node has held as committed at any time is part; every committed index is
on record. -/
structure Cluster.CommitHistory (m : Membership) (c : Cluster) (committed : List LogEntry) : Prop
    extends Cluster.Committed m c committed where
  recorded : ∀ tr ∈ c.trace, ∀ i e, tr.after.node.Commits i e → committed[(i - 1).toNat]? = some e
  complete : ∀ id ∈ m.ids, ∀ i, 1 ≤ i → i ≤ (c.servers id).node.commitIndex → c.OnRecord i

end ConsensusLab.Raft

namespace ConsensusLab.Service

open Foundation ConsensusLab.KV
open Raft (Action ApplyMsg Cluster Decided Effects Entry Input LogEntry LogRefines Membership Node RaftLog Request
  Server Snapshot Transition Undisturbed firstLog)

/-- A system follows the replicated log. -/
structure System.Follows (dep : Deployment) (sys : System) (a : RaftLog) : Prop where
  log : LogRefines dep.members sys.cluster a
  processes : ∀ id ∈ dep.members.ids,
    ProcessSound dep.codec a (sys.cluster.servers id) (sys.services id) (sys.channels id)
  calls : ∀ call ∈ sys.cluster.calls, ∀ req, call.request = .install req →
    Restores dep.codec a req.data req.lastIncludedIndex
  recorded : ∀ tr ∈ sys.cluster.trace, ∀ i e, tr.after.node.Commits i e → Decided a i e

variable {dep : Deployment} {sys sys' : System} {a a' : RaftLog} {action : Action} {tr : Transition}

/-- What comes with an input is what a call carries or what a compaction is given. -/
theorem System.Follows.brings (h : sys.Follows dep a) {id : String} {input : Input} {served : Option ℕ}
    (hsource : Cluster.Source dep.members.ids sys.cluster action id input served)
    (htaken : ∀ id index data fates, action = .act id (.takeSnapshot index data) fates →
      Restores dep.codec a data index) {snap : Snapshot} (hbrings : input.Brings snap) :
    Restores dep.codec a snap.data snap.lastIncludedIndex := by
  rcases hsource.brings hbrings with ⟨call, hcall, req, hreq, rfl⟩ | ⟨fates, _, htake⟩
  · exact h.calls call hcall req hreq
  · exact htaken _ _ _ _ htake

/-- The process of the node that has moved. -/
theorem System.Follows.process (h : sys.Follows dep a) (hinv : LogInvariant dep.members.quorums a)
    (hgrows : a.Grows a') {input : Input} {served : Option ℕ} {c : Cluster}
    (hc : c = sys.cluster.record tr.id input served tr.after tr.effects)
    (htr : tr = { id := tr.id, input := input, before := sys.cluster.servers tr.id, after := tr.after,
                  effects := tr.effects })
    (hlog : LogRefines dep.members c a') (hid : tr.id ∈ dep.members.ids)
    (hmove : (sys.cluster.servers tr.id).Move sys.cluster.calls.length [] input (tr.after, tr.effects))
    (hbrings : ∀ snap, input.Brings snap → Restores dep.codec a snap.data snap.lastIncludedIndex) :
    ProcessSound dep.codec a' tr.after ((sys.follow dep c tr).services tr.id)
      ((sys.follow dep c tr).channels tr.id) := by
  have hprocess := h.processes tr.id hid
  have hinput : tr.input = input := by rw [htr]
  have hafter : c.servers tr.id = tr.after := by rw [hc, Cluster.record_servers_self]
  have hrecorded : Raft.Recorded a' tr := by
    apply hlog.trace tr
    rw [hc, htr]
    exact List.mem_cons_self
  have hbefore : tr.before = sys.cluster.servers tr.id := by rw [htr]
  unfold System.follow
  split
  case isTrue hrestarts =>
    have hover : input = .restart ∨ tr.effects.lost ≠ none := by
      simpa [Transition.restarts, hinput, Option.isSome_iff_ne_none] using hrestarts
    obtain ⟨disk, hboot⟩ := hmove.rebooted hover
    have hcommit : 0 ≤ tr.after.node.commitIndex := by
      rw [← hafter, (hlog.servers tr.id hid).log.logs.commit]
      exact Int.natCast_nonneg _
    have hlogMove := hmove.logMove
    simp only at hboot
    rw [hboot] at hlogMove hcommit ⊢
    simp only [Function.update_self]
    exact hprocess.restart hinv hgrows hlogMove hbrings hcommit _
  case isFalse hkept =>
    have hkept' : input ≠ .restart ∧ tr.effects.lost = none := by
      simpa [Transition.restarts, hinput] using hkept
    have hevolves := hrecorded.evolved (hinput ▸ hkept'.1) hkept'.2
    rw [hbefore] at hevolves
    simp only [Function.update_self]
    exact hprocess.move hinv hgrows hmove.logMove hkept'.1 hkept'.2 (h.log.servers tr.id hid).snapshotsHeld
      hbrings hevolves hrecorded.delivered

/-- A step of the nodes. -/
theorem System.Follows.advance (h : sys.Follows dep a)
    (arun : Reachable LogState.First (LogStep dep.members.quorums fun _ _ _ => True) a)
    (hcalm : Undisturbed sys.cluster action)
    (htaken : ∀ id index data fates, action = .act id (.takeSnapshot index data) fates →
      Restores dep.codec a data index)
    (hadvance : sys.advance dep action = some (sys', tr)) :
    ∃ a', Relation.ReflTransGen (LogStep dep.members.quorums fun _ _ _ => True) a a' ∧ sys'.Follows dep a' := by
  obtain ⟨input, served, hsource, hmove, hstep, htr, rfl⟩ := System.advance_cases hadvance
  have hinv := logInvariant_of_reachable arun
  obtain ⟨a', path, hlog⟩ := h.log.step hinv hcalm (Raft.installsPermitted_true _ _ _) hstep
  have hinv' := logInvariant_of_reachable (arun.trans path)
  have hgrows := LogState.Grows.of_path arun path
  have hid := (h.log.wired.source hsource).1
  rw [hcalm.1] at hmove
  have hself := h.process hinv hgrows rfl htr hlog hid hmove fun snap => h.brings hsource htaken
  refine ⟨a', path, ?_, fun id hmem => ?_, fun call hcall req hreq => ?_, fun tr' htr' i e he => ?_⟩
  · rw [System.follow_cluster]
    exact hlog
  · rw [System.follow_cluster]
    by_cases heq : id = tr.id
    · subst heq
      rw [Cluster.record_servers_self]
      exact hself
    · obtain ⟨hservice, hchannel⟩ := sys.follow_of_ne dep
        (sys.cluster.record tr.id input served tr.after tr.effects) tr heq
      rw [Cluster.record_servers_of_ne _ _ _ _ _ heq, hservice, hchannel]
      exact (h.processes id hmem).mono hinv hgrows
  · rw [System.follow_cluster] at hcall
    rcases List.mem_append.mp hcall with hold | hnew
    · exact (h.calls call hold req hreq).mono hinv hgrows
    · obtain ⟨⟨peer, request⟩, hstarted, rfl⟩ := List.mem_map.mp hnew
      obtain rfl : request = .install req := hreq
      have hheld := hmove.installs hstarted
      have hrestores := (h.processes tr.id hid).snapshots req.snapshot
        (Server.mem_snapshots.mpr (Or.inl (Or.inl hheld)))
      exact Restores.mono hrestores hinv hgrows
  · rw [System.follow_cluster] at htr'
    rcases List.mem_cons.mp htr' with rfl | hold
    · have hserver := hlog.servers tr.id hid
      rw [Cluster.record_servers_self] at hserver
      exact hserver.log.decided hinv' he.1 he.2
    · exact (h.recorded tr' hold i e he).mono hinv hgrows

/-- A step of a service that handles no message. -/
theorem System.Follows.serve (h : sys.Follows dep a) {id : String} {event : Event}
    (hevent : ∀ msg, event ≠ .apply msg) (hserve : sys.serve dep id event = some sys') : sys'.Follows dep a := by
  obtain ⟨⟨s, returned⟩, hstep, rfl⟩ := Option.map_eq_some_iff.mp hserve
  refine ⟨h.log, fun other hother => ?_, h.calls, h.recorded⟩
  have hprocess := h.processes other hother
  by_cases heq : other = id
  · subst heq
    simp only [Function.update_self]
    exact hprocess.keep ((KV.Move.of_step hstep).keeps hevent)
  · simp only [Function.update_of_ne heq]
    exact hprocess

/-- A service handles the first message of its channel. -/
theorem System.Follows.receive (h : sys.Follows dep a) (hinv : LogInvariant dep.members.quorums a)
    {id : String} {msg : ApplyMsg} {rest : List ApplyMsg} (hchannel : sys.channels id = msg :: rest)
    (hserve : { sys with channels := Function.update sys.channels id rest }.serve dep id (.apply msg) =
      some sys') : sys'.Follows dep a := by
  obtain ⟨⟨s, returned⟩, happly, rfl⟩ := Option.map_eq_some_iff.mp hserve
  refine ⟨h.log, fun other hother => ?_, h.calls, h.recorded⟩
  have hprocess := h.processes other hother
  by_cases heq : other = id
  · subst heq
    have hlogs := (h.log.servers other hother).log.logs
    have hsnap : (sys.cluster.servers other).node.snapshotIndex ≤
        (sys.cluster.servers other).node.commitIndex := by
      have := hinv.snap_le other
      rw [hlogs.window.index, hlogs.commit]
      omega
    simp only [Function.update_self]
    rw [hchannel] at hprocess
    cases KV.Move.of_step happly with
    | apply _ hhandler => exact hprocess.handleApply hhandler hlogs.applied hsnap
  · simp only [Function.update_of_ne heq]
    exact hprocess

/-- The nodes act undisturbed when no service asks them to and storage works. -/
theorem undisturbed_of_not_byService {c : Cluster} (hservice : action.byService = false)
    (hfates : action.fates = []) : Undisturbed c action := by
  refine ⟨hfates, fun p hp => ?_⟩
  cases action with
  | act id input fates =>
    cases input with
    | takeSnapshot => cases hservice
    | _ => cases hp
  | deliver | answer => cases hp

/-- Proposing a command disturbs nothing. -/
theorem undisturbed_of_startCommand (c : Cluster) (id : String) (cmd : Raft.Bytes) :
    Undisturbed c (.act id (.startCommand cmd) []) :=
  ⟨rfl, fun p hp => by cases hp⟩

/-- A service has its node take snapshots only of what the node has applied. -/
theorem System.Follows.undisturbed_snapshot (h : sys.Follows dep a) {id : String}
    (hhandler : (sys.services id).handler = .snapshotting) (hid : id ∈ dep.members.ids) :
    Undisturbed sys.cluster (.act id (.takeSnapshot (sys.services id).lastAppliedIndex
      ((sys.services id).store.snapshot dep.codec)) []) := by
  refine ⟨rfl, fun p hp => ?_⟩
  cases hp
  exact (h.processes id hid).due (by rw [hhandler]; rfl)

/-- An action of a member's own. -/
theorem System.mem_of_advance {id : String} {input : Input} {fates : List Fate}
    (h : sys.advance dep (.act id input fates) = some (sys', tr)) : id ∈ dep.members.ids := by
  obtain ⟨_, _, hsource, _⟩ := System.advance_cases h
  cases hsource with
  | act hid => exact hid

/-- Every step of a system in which storage succeeds is followed by steps of the replicated log. -/
theorem System.Follows.step (h : sys.Follows dep a)
    (arun : Reachable LogState.First (LogStep dep.members.quorums fun _ _ _ => True) a)
    {act : SystemAction} (hcalm : StorageSucceeds sys act) (hstep : sys.step dep act = some sys') :
    ∃ a', Relation.ReflTransGen (LogStep dep.members.quorums fun _ _ _ => True) a a' ∧ sys'.Follows dep a' := by
  cases System.Turn.of_step hstep with
  | @raft action _ tr hservice hadvance =>
    refine h.advance arun (undisturbed_of_not_byService hservice hcalm) (fun _ _ _ _ htake => ?_) hadvance
    subst htake
    cases hservice
  | @propose id call command fates sys₁ _ tr hadvance hwait =>
    obtain rfl : fates = [] := hcalm
    obtain ⟨a', path, h'⟩ := h.advance arun (undisturbed_of_startCommand ..)
      (fun _ _ _ _ htake => by cases htake) hadvance
    refine ⟨a', path, ?_⟩
    rcases hwait with ⟨_, rfl⟩ | ⟨index, _, hserve⟩
    · exact h'
    · exact h'.serve (fun msg happly => by cases happly) hserve
  | receive hchannel hserve => exact ⟨a, .refl, h.receive (logInvariant_of_reachable arun) hchannel hserve⟩
  | @snapshot id fates sys₁ _ tr hhandler hadvance hreturn =>
    obtain rfl : fates = [] := hcalm
    have hid := System.mem_of_advance hadvance
    obtain ⟨a', path, h'⟩ := h.advance arun (h.undisturbed_snapshot hhandler hid)
      (fun _ _ _ _ htake => by cases htake; exact (h.processes id hid).store.snapshot) hadvance
    refine ⟨a', path, ?_⟩
    rcases hreturn with ⟨_, rfl⟩ | hserve
    · exact h'
    · exact h'.serve (fun msg happly => by cases happly) hserve
  | @serve id event _ hlocal hserve =>
    refine ⟨a, .refl, h.serve (fun msg happly => ?_) hserve⟩
    subst happly
    cases hlocal

/-- A new system follows the replicated log. -/
theorem System.follows_first (dep : Deployment) : (System.first dep).Follows dep firstLog where
  log := Raft.logRefines_first dep.members
  processes id hid := by
    refine ⟨.new dep.codec firstLog, ?_, nofun, fun snap hsnap => absurd hsnap (Raft.boot_snapshots_empty _ _ snap),
      fun _ => ⟨trivial, Node.delivers_boot _ _ _ nofun, nofun⟩⟩
    exact Int.le_of_eq ((Raft.logRefines_first dep.members).servers id hid).log.logs.commit.symm
  calls call hcall := absurd hcall List.not_mem_nil
  recorded tr htr := absurd htr List.not_mem_nil

/-- Every state that runs of a system with working storage reach follows the replicated log. -/
theorem System.follows_of_reachable (run : SystemReachable dep StorageSucceeds sys) :
    ∃ a, Reachable LogState.First (LogStep dep.members.quorums fun _ _ _ => True) a ∧ sys.Follows dep a := by
  refine run.simulate ?_ ?_
  · rintro sys rfl
    exact ⟨firstLog, Raft.firstLog_first, System.follows_first dep⟩
  · rintro sys sys' a arun h ⟨act, hcalm, hstep⟩
    exact h.step arun hcalm hstep

/-- A step of a system leaves the cluster alone or is an undisturbed step of it: a service compacts only
what its node has delivered. -/
theorem System.Follows.cluster_step (h : sys.Follows dep a) {act : SystemAction} (hcalm : StorageSucceeds sys act)
    (hstep : sys.step dep act = some sys') :
    sys'.cluster = sys.cluster ∨
      ∃ action, Undisturbed sys.cluster action ∧ sys.cluster.step dep.members.ids action = some sys'.cluster := by
  cases System.Turn.of_step hstep with
  | raft hservice hadvance =>
    exact Or.inr ⟨_, undisturbed_of_not_byService hservice hcalm, System.advance_cluster hadvance⟩
  | @propose id call command fates sys₁ _ tr hadvance hwait =>
    obtain rfl : fates = [] := hcalm
    have hsame : sys'.cluster = sys₁.cluster := by
      rcases hwait with ⟨_, rfl⟩ | ⟨index, _, hserve⟩
      · rfl
      · exact System.serve_cluster hserve
    rw [hsame]
    exact Or.inr ⟨_, undisturbed_of_startCommand .., System.advance_cluster hadvance⟩
  | @snapshot id fates sys₁ _ tr hhandler hadvance hreturn =>
    obtain rfl : fates = [] := hcalm
    have hsame : sys'.cluster = sys₁.cluster := by
      rcases hreturn with ⟨_, rfl⟩ | hserve
      · rfl
      · exact System.serve_cluster hserve
    rw [hsame]
    exact Or.inr ⟨_, h.undisturbed_snapshot hhandler (System.mem_of_advance hadvance),
      System.advance_cluster hadvance⟩
  | receive _ hserve | serve _ hserve =>
    have hsame := System.serve_cluster hserve
    exact Or.inl hsame

/-- The nodes of a system run undisturbed. -/
theorem System.undisturbed (run : SystemReachable dep StorageSucceeds sys) :
    Raft.ClusterReachable dep.members Undisturbed sys.cluster := by
  refine run.invariant (P := fun sys => Raft.ClusterReachable dep.members Undisturbed sys.cluster) ?_ ?_
  · rintro sys rfl
    exact .first rfl
  · rintro sys sys' run ih ⟨act, hcalm, hstep⟩
    obtain ⟨a, _, h⟩ := System.follows_of_reachable run
    rcases h.cluster_step hcalm hstep with hsame | ⟨action, hundisturbed, hnext⟩
    · rw [hsame]
      exact ih
    · exact .next ih ⟨action, hundisturbed, hnext⟩

/-- A replay of decided commands is a replay of the committed log. -/
theorem Replays.committed {index : Int} {store : Store} (h : Replays dep.codec a index store)
    (hinv : LogInvariant dep.members.quorums a) {l : List Entry} (hl : a.CommittedLog l) :
    0 ≤ index ∧ index ≤ (l.map Entry.kept).length ∧
      replay dep.codec (((l.map Entry.kept).take index.toNat).map LogEntry.command) = some store := by
  obtain ⟨commands, rfl, hdecided, hreplay⟩ := h
  have hentry : ∀ (j : ℕ) cmd, commands[j]? = some cmd →
      ((l.map Entry.kept)[j]?).map LogEntry.command = some cmd := by
    intro j cmd hcmd
    obtain ⟨e, he, rfl⟩ := hdecided j cmd hcmd
    have := he.committed hinv hl
    rw [show ((j : Int) + 1 - 1).toNat = j by omega] at this
    rw [this, Option.map_some]
  have hlength : commands.length ≤ (l.map Entry.kept).length := by
    by_contra hlt
    have hlast := hentry (l.map Entry.kept).length _ (List.getElem?_eq_getElem (by omega))
    rw [List.getElem?_eq_none le_rfl] at hlast
    cases hlast
  have hsame : ((l.map Entry.kept).take commands.length).map LogEntry.command = commands := by
    apply List.ext_getElem?
    intro j
    rw [List.getElem?_map, List.getElem?_take]
    split
    · rw [hentry j _ (List.getElem?_eq_getElem ‹_›), List.getElem?_eq_getElem ‹_›]
    · rw [Option.map_none, List.getElem?_eq_none (by omega)]
  exact ⟨Int.natCast_nonneg _, Int.ofNat_le.mpr hlength, by rw [Int.toNat_natCast, hsame, hreplay]⟩

/-- A snapshot that some node holds, or that was sent to some node. -/
def System.HasSnapshot (dep : Deployment) (sys : System) (snap : Snapshot) : Prop :=
  (∃ id ∈ dep.members.ids, snap ∈ (sys.cluster.servers id).snapshots) ∨
    ∃ call ∈ sys.cluster.calls, ∃ req, call.request = .install req ∧ snap = req.snapshot

/-- The store after the committed commands up to an index. -/
def replayTo (codec : Codec) (committed : List LogEntry) (index : Int) : Option Store :=
  replay codec ((committed.take index.toNat).map LogEntry.command)

/-- **The stores are the fold of the committed log.** In every run of a system whose storage works, each
store is the replay of the committed commands up to its service's `lastAppliedIndex`, and every snapshot
that is held or has been sent restores the replay up to its index. -/
theorem stores_replay_committed_log (run : SystemReachable dep StorageSucceeds sys) :
    ∃ committed, sys.cluster.CommitHistory dep.members committed ∧
      (∀ id ∈ dep.members.ids, 0 ≤ (sys.services id).lastAppliedIndex ∧
        (sys.services id).lastAppliedIndex ≤ (sys.cluster.servers id).node.commitIndex ∧
        replayTo dep.codec committed (sys.services id).lastAppliedIndex = some (sys.services id).store) ∧
      ∀ snap, sys.HasSnapshot dep snap → 0 ≤ snap.lastIncludedIndex ∧
        snap.lastIncludedIndex ≤ committed.length ∧ ∃ store,
          Store.restoreSnapshot dep.codec snap.data = some store ∧
          replayTo dep.codec committed snap.lastIncludedIndex = some store := by
  obtain ⟨a, arun, h⟩ := System.follows_of_reachable run
  have hinv := logInvariant_of_reachable arun
  obtain ⟨l, hl⟩ := exists_committedLog arun
  refine ⟨l.map Entry.kept, ⟨h.log.committed hinv hl, fun tr htr i e he => ?_, ?_⟩, fun id hid => ?_,
    fun snap hsnap => ?_⟩
  · exact (h.recorded tr htr i e he).committed hinv hl
  · exact (Raft.commitsOnRecord_of_undisturbed (System.undisturbed run)).nodes
  · have hprocess := h.processes id hid
    obtain ⟨hnonneg, _, hreplay⟩ := hprocess.store.committed hinv hl
    exact ⟨hnonneg, hprocess.committed, hreplay⟩
  · have hrestores : Restores dep.codec a snap.data snap.lastIncludedIndex := by
      rcases hsnap with ⟨id, hid, hheld⟩ | ⟨call, hcall, req, hreq, rfl⟩
      · exact (h.processes id hid).snapshots snap hheld
      · exact h.calls call hcall req hreq
    obtain ⟨store, hreplays, hrestore⟩ := hrestores
    obtain ⟨hnonneg, hlength, hreplay⟩ := hreplays.committed hinv hl
    exact ⟨hnonneg, hlength, store, hrestore, hreplay⟩

/-- Three processes that take a snapshot after every command. -/
def threeProcesses : Deployment where
  members := Raft.threeNodes
  codec := jsonCodec
  snapshotEvery _ := 1

/-- Node `a` wins the first term, and a value is put through it and committed with the vote of `b`. -/
def putCommitted : List SystemAction :=
  (Raft.electionOf "a" 0 1).map .raft ++ [.propose "a" 1 (putCommand "x" "1") [],
    .raft (.act "a" (.startRound true) [])] ++ (Raft.replicationOf "a" "b" 2 1).map .raft

/-- Node `a` applies the command and has its log compacted, and its snapshot restores the store. -/
theorem stores_replay_committed_log_after_snapshot :
    ∃ sys, SystemReachable threeProcesses StorageSucceeds sys ∧ (sys.services "a").lastAppliedIndex = 1 ∧
      (sys.services "a").store.get "x" = some "1" ∧ (sys.cluster.servers "a").node.snapshotIndex = 1 ∧
      ∃ committed, sys.cluster.CommitHistory Raft.threeNodes committed ∧
        replayTo jsonCodec committed 1 = some (sys.services "a").store := by
  have hrun : (execute StorageSucceeds (System.step threeProcesses) (System.first threeProcesses)
      (putCommitted ++ (Raft.applicationBy "a").map .raft ++
        [.receive "a", .serve "a" .notify, .snapshot "a" []])).map
      (fun sys => ((sys.services "a").lastAppliedIndex, (sys.services "a").store.get "x",
        (sys.cluster.servers "a").node.snapshotIndex)) = some (1, some "1", 1) := by
    decide +kernel
  obtain ⟨sys, hsys, hfacts⟩ := exists_systemReachable_of_execute hrun
  obtain ⟨hindex, hrest⟩ := Prod.mk.inj hfacts
  obtain ⟨hget, hsnap⟩ := Prod.mk.inj hrest
  obtain ⟨committed, hcommitted, hstores, _⟩ := stores_replay_committed_log hsys
  have hreplay := (hstores "a" (by decide)).2.2
  rw [hindex] at hreplay
  exact ⟨sys, hsys, hindex, hget, hsnap, committed, hcommitted, hreplay⟩

end ConsensusLab.Service
