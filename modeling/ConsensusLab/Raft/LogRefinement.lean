import ConsensusLab.Raft.HandlerMirror
import ConsensusLab.Raft.OfficeMirror
import ConsensusLab.Raft.Wiring

/-!
# A cluster follows the replicated log

In a run without storage faults every step of every server is a path of the replicated
log, and what has happened on record in the trace agrees with the protocol's records:
what was delivered is decided, what a leader committed was chosen, and what a new leader
held is where its term's log starts.
-/

namespace ConsensusLab.Raft

open Foundation

/-- A later state of a node that has not been restarted in between. -/
structure Evolves (n n' : Node) : Prop where
  snapshotIndex : n.snapshotIndex ≤ n'.snapshotIndex
  commitIndex : n.commitIndex ≤ n'.commitIndex
  lastApplied : n.lastApplied ≤ n'.lastApplied
  kept : ∀ i e, n.entryAt i = some e → i ≤ n.commitIndex → n'.snapshotIndex < i → n'.entryAt i = some e

/-- The node is a leader that has just committed a chosen position. -/
def Chose (a : RaftLog) (n : Node) : Prop :=
  ∃ (t k s : ℕ) (l : List Entry), n.currentTerm = t ∧ a.chosen t k ∧ n.commitIndex = k + 1 ∧
    n.Windows l s ∧ l <+: a.leaderLog t

/-- The node is a leader that holds what its term's log starts with. -/
def Elected (a : RaftLog) (n : Node) : Prop :=
  ∃ (t s : ℕ) (l : List Entry), n.currentTerm = t ∧ a.Led t ∧ n.Windows l s ∧ l <+: a.leaderLog t ∧
    (∀ j u, l.length ≤ j → termAt (a.leaderLog t) j = some u → u = t) ∧
    (n.snapshotIndex ≠ 0 → ∃ snap, n.snapshot = some snap ∧ snap.lastIncludedIndex = n.snapshotIndex)

/-- A step on record agrees with the replicated log. -/
structure Recorded (a : RaftLog) (tr : Transition) : Prop where
  delivered : ∀ cmd i, tr.effects.delivered = some (.command cmd i) →
    ∃ e, Decided a i e ∧ e.command = cmd
  evolved : tr.input ≠ .restart → tr.effects.lost = none → Evolves tr.before.node tr.after.node
  advanced : tr.after.node.role = .leader →
    tr.before.node.commitIndex < tr.after.node.commitIndex → Chose a tr.after.node
  elected : tr.before.node.role ≠ .leader → tr.after.node.role = .leader → Elected a tr.after.node

/-- The main loop mirrors the replicated log: leaders do not campaign, polls are on record, and a
candidate campaigns in its own term. -/
structure MainLog (a : RaftLog) (id : String) (n : Node) (main : MainLoop) : Prop where
  office : n.role = .leader → main.canvassing = false
  poll : ∀ req, main.campaign = some req → CallBacked a id (.vote req)
  campaign : n.role = .candidate → ∀ req, main.campaign = some req →
    req.term = n.currentTerm ∧ a.standing id = .candidate

/-- The apply loop sends snapshots that the node has and entries that are decided. -/
def ApplierLog (a : RaftLog) (n : Node) : ApplyLoop → Prop
  | .sendingSnapshot snap | .sentSnapshot snap => snap.lastIncludedIndex ≤ n.snapshotIndex
  | .sendingEntry entry index => Decided a index entry
  | .parked | .draining | .applying => True

/-- A server mirrors the replicated log. -/
structure ServerLog (a : RaftLog) (id : String) (sv : Server) : Prop where
  log : LogMirror a id sv.node sv.disk
  main : MainLog a id sv.node sv.main
  applier : ApplierLog a sv.node sv.applier

/-- A server after a step, and what backs the step's effects. -/
def LogAfter (m : Membership) (may : RaftLog → String → ℕ → Prop) (a : RaftLog) (id : String)
    (sv : Server) (input : Input) (result : Server × Effects) : Prop :=
  ∃ a', LogPath m may id a a' ∧ ServerLog a' id result.1 ∧
    (∀ call ∈ result.2.calls, CallBacked a' id call.2) ∧
    (∀ req reply, input = .receive req → result.2.reply = some reply → ReplyBacked a' id req reply) ∧
    Recorded a' { id := id, input := input, before := sv, after := result.1, effects := result.2 }

variable {m : Membership} {may : RaftLog → String → ℕ → Prop} {a a' : RaftLog} {id : String}
  {n n' : Node} {d d' : PersistentState} {sv : Server} {main : MainLoop} {applier : ApplyLoop}

/-- Growth of the records keeps what was chosen. -/
theorem Chose.mono (h : Chose a n) (hinv : LogInvariant m.quorums a) (hgrows : a.Grows a') :
    Chose a' n := by
  obtain ⟨t, k, s, l, hterm, hchosen, hcommit, hwindow, hlog⟩ := h
  exact ⟨t, k, s, l, hterm, hgrows.chosen t k hchosen, hcommit, hwindow,
    hlog.trans (hgrows.leaderLog t (hinv.chosen_ok t k hchosen).1)⟩

/-- Growth of the records keeps what a leader started with. -/
theorem Elected.mono (h : Elected a n) (hgrows : a.Grows a') : Elected a' n := by
  obtain ⟨t, s, l, hterm, hled, hwindow, hlog, hstamp, hsnap⟩ := h
  refine ⟨t, s, l, hterm, hgrows.toExtends.led t hled, hwindow, hlog.trans (hgrows.leaderLog t hled),
    fun j u hj hu => ?_, hsnap⟩
  by_cases hold : j < (a.leaderLog t).length
  · obtain ⟨more, hmore⟩ := hgrows.leaderLog t hled
    refine hstamp j u hj ?_
    rw [← hu, ← hmore]
    exact termAt_congr (List.getElem?_append_left hold).symm
  · exact hgrows.stamp t hled j u (by omega) hu

/-- Steps on record stay in agreement. -/
theorem Recorded.mono {tr : Transition} (h : Recorded a tr) (hinv : LogInvariant m.quorums a)
    (hgrows : a.Grows a') : Recorded a' tr where
  delivered cmd i hd := by
    obtain ⟨e, he, hcmd⟩ := h.delivered cmd i hd
    exact ⟨e, he.mono hinv hgrows, hcmd⟩
  evolved := h.evolved
  advanced hrole hlt := (h.advanced hrole hlt).mono hinv hgrows
  elected hbefore hafter := (h.elected hbefore hafter).mono hgrows

/-- Becoming a follower, or keeping one's role, needs no change of the main loop. -/
theorem MainLog.persist (h : MainLog a id n main) (hinv : LogInvariant m.quorums a)
    (hgrows : a.Grows a') (hpers : Persists id a n a' n') : MainLog a' id n' main := by
  refine ⟨fun hl => ?_, fun req hreq => (h.poll req hreq).mono hinv hgrows, fun hc req hreq => ?_⟩
  · rcases hpers with hf | ⟨hrole, _⟩
    · rw [hf] at hl
      cases hl
    · exact h.office (hrole ▸ hl)
  · rcases hpers with hf | ⟨hrole, hterm, hst⟩
    · rw [hf] at hc
      cases hc
    · rw [hterm, hst]
      exact h.campaign (hrole ▸ hc) req hreq

/-- At the top of `run`, and once it has returned, nothing is asked of the node. -/
theorem MainLog.rest (hmain : main = .idle ∨ main = .stopped) : MainLog a id n main where
  office _ := by rcases hmain with rfl | rfl <;> rfl
  poll req hreq := by rcases hmain with rfl | rfl <;> cases hreq
  campaign _ req hreq := by rcases hmain with rfl | rfl <;> cases hreq

/-- What the apply loop holds stays deliverable. -/
theorem ApplierLog.mono (h : ApplierLog a n applier) (hinv : LogInvariant m.quorums a)
    (hgrows : a.Grows a') (hsnap : n.snapshotIndex ≤ n'.snapshotIndex) : ApplierLog a' n' applier := by
  cases applier with
  | parked | draining | applying => trivial
  | sendingSnapshot snap => exact Int.le_trans h hsnap
  | sentSnapshot snap => exact Int.le_trans h hsnap
  | sendingEntry entry index => exact Decided.mono h hinv hgrows

/-- A server that does nothing mirrors the replicated log while others act. -/
theorem ServerLog.mono (h : ServerLog a id sv) (hinv : LogInvariant m.quorums a) (hgrows : a.Grows a')
    (hview : logView a' id = logView a id) : ServerLog a' id sv := by
  have hst : a'.standing id = a.standing id := (Prod.mk.inj (Prod.mk.inj hview).2).1
  exact ⟨h.log.mono hinv hgrows hview, h.main.persist hinv hgrows (Or.inr ⟨rfl, rfl, hst⟩),
    h.applier.mono hinv hgrows (Int.le_refl _)⟩

/-- A node evolves as its participant advances. -/
theorem LogMirror.evolves (h : LogMirror a id n d) (h' : LogMirror a' id n' d')
    (hadvances : a.Advances a' id) (happlied : n.lastApplied ≤ n'.lastApplied) : Evolves n n' := by
  refine ⟨?_, ?_, happlied, fun i e he hi hsnap => ?_⟩
  · rw [h.logs.window.index, h'.logs.window.index]
    exact Int.ofNat_le.mpr hadvances.snap
  · rw [h.logs.commit, h'.logs.commit]
    exact Int.ofNat_le.mpr hadvances.commit
  · obtain ⟨j, whole, rfl, _, hwhole, rfl⟩ := h.logs.window.of_entryAt he
    rw [h.logs.commit] at hi
    rw [h'.logs.window.index] at hsnap
    rw [h'.logs.window.entryAt (by omega), ← hadvances.agree j (by omega), hwhole]
    rfl

/-- A leader that has committed a chosen position, seen from the records. -/
theorem LogMirror.chose (hinv : LogInvariant m.quorums a) (h : LogMirror a id n d)
    (hrole : n.role = .leader) (hpos : 0 < n.commitIndex)
    (hchosen : a.chosen (a.term id) (a.commit id - 1)) : Chose a n := by
  have hcommit := h.logs.commit
  refine ⟨a.term id, a.commit id - 1, a.snap id, a.log id, h.ballots.term, hchosen, by omega,
    h.logs.window, ?_⟩
  rw [hinv.office_log id (h.leader hrole).standing]

/-- A leader that has just been elected, seen from the records. -/
theorem LogMirror.elected (hinv : LogInvariant m.quorums a) (h : LogMirror a id n d)
    (hrole : n.role = .leader) : Elected a n := by
  have hp := h.leader hrole
  refine ⟨a.term id, a.snap id, a.log id, h.ballots.term, hp.led hinv, h.logs.window, ?_,
    fun j u hj hu => ?_, fun hne => ?_⟩
  · rw [hinv.office_log id hp.standing]
  · rw [← hinv.office_log id hp.standing] at hu
    exact absurd (lt_length_of_termAt hu) (Nat.not_lt.mpr hj)
  · obtain ⟨snap, hsnap⟩ := Option.ne_none_iff_exists'.mp (h.logs.held hne)
    exact ⟨snap, hsnap, (h.logs.snapshot snap hsnap).1⟩

/-- A step without calls, answer and delivery: only the change of the server is on record. -/
theorem LogAfter.silent {input : Input} {result : Server × Effects} (hpath : LogPath m may id a a')
    (hserver : ServerLog a' id result.1) (hcalls : result.2.calls = []) (hreply : result.2.reply = none)
    (hdelivered : result.2.delivered = none)
    (hevolved : input ≠ .restart → result.2.lost = none → Evolves sv.node result.1.node)
    (hadvanced : result.1.node.role = .leader → sv.node.commitIndex < result.1.node.commitIndex →
      Chose a' result.1.node)
    (helected : sv.node.role ≠ .leader → result.1.node.role = .leader → Elected a' result.1.node) :
    LogAfter m may a id sv input result := by
  refine ⟨a', hpath, hserver, fun call hcall => ?_, fun req reply _ hr => ?_, fun cmd i hd => ?_, hevolved,
    hadvanced, helected⟩
  · rw [hcalls] at hcall
    cases hcall
  · rw [hreply] at hr
    cases hr
  · have hd' : result.2.delivered = some (.command cmd i) := hd
    rw [hdelivered] at hd'
    cases hd'

/-- A step within one section that wins no election, answers no request and delivers nothing new. -/
theorem LogAfter.steered (hinv : LogInvariant m.quorums a) (h : ServerLog a id sv) {input : Input}
    {result : Server × Effects} (hs : Steered m may a id sv.node result.1.node result.1.disk)
    (hmain : ∀ a', a.Grows a' → Persists id a sv.node a' result.1.node →
      MainLog a' id result.1.node result.1.main)
    (happlier : ∀ a', a.Grows a' → sv.node.snapshotIndex ≤ result.1.node.snapshotIndex →
      ApplierLog a' result.1.node result.1.applier)
    (hcalls : ∀ call ∈ result.2.calls, CallBacked a id call.2) (hreply : result.2.reply = none)
    (hdelivered : ∀ cmd i, result.2.delivered = some (.command cmd i) →
      ∃ e, Decided a i e ∧ e.command = cmd) : LogAfter m may a id sv input result := by
  obtain ⟨a', hrun, hmirror, hpers, happlied, hchosen⟩ := hs
  have hinv' := LogPath.invariant hinv hrun.path
  have hgrows := LogPath.grows hinv hrun.path
  have hevolves := h.log.evolves hmirror hrun.advances happlied
  refine ⟨a', hrun.path, ⟨hmirror, hmain a' hgrows hpers, happlier a' hgrows hevolves.snapshotIndex⟩,
    fun call hcall => (hcalls call hcall).mono hinv hgrows, fun req reply _ hr => ?_,
    fun cmd i hd => ?_, fun _ _ => hevolves, fun hrole hlt => ?_, fun hbefore hafter => ?_⟩
  · rw [hreply] at hr
    cases hr
  · obtain ⟨e, he, hcmd⟩ := hdelivered cmd i hd
    exact ⟨e, he.mono hinv hgrows, hcmd⟩
  · have hlt' : sv.node.commitIndex < result.1.node.commitIndex := hlt
    have hpos : 0 < result.1.node.commitIndex := by
      have := h.log.logs.commit
      omega
    exact hmirror.chose hinv' hrole hpos (hchosen hrole hlt)
  · have hafter' : result.1.node.role = .leader := hafter
    rcases hpers with hf | ⟨hsame, _⟩
    · rw [hf] at hafter'
      cases hafter'
    · exact absurd (hsame.symm.trans hafter') hbefore

/-- The same with both loops left where they were and no effects. -/
theorem ServerLog.steer (hinv : LogInvariant m.quorums a) (h : ServerLog a id sv) {input : Input}
    {result : Server × Effects} (hs : Steered m may a id sv.node result.1.node result.1.disk)
    (hmain : result.1.main = sv.main) (happlier : result.1.applier = sv.applier)
    (hcalls : result.2.calls = []) (hreply : result.2.reply = none) (hdelivered : result.2.delivered = none) :
    LogAfter m may a id sv input result := by
  refine .steered hinv h hs (fun a' hgrows hpers => ?_) (fun a' hgrows hsnap => ?_)
    (fun call hcall => ?_) hreply (fun cmd i hd => ?_)
  · rw [hmain]
    exact h.main.persist hinv hgrows hpers
  · rw [happlier]
    exact h.applier.mono hinv hgrows hsnap
  · rw [hcalls] at hcall
    cases hcall
  · rw [hdelivered] at hd
    cases hd

/-- The same with the main loop moved to a place outside elections. -/
theorem ServerLog.turn (hinv : LogInvariant m.quorums a) (h : ServerLog a id sv) {input : Input}
    {result : Server × Effects} (hs : Steered m may a id sv.node result.1.node result.1.disk)
    (hmain : result.1.main.campaign = none) (hcanvass : result.1.main.canvassing = false)
    (happlier : result.1.applier = sv.applier)
    (hcalls : ∀ call ∈ result.2.calls, CallBacked a id call.2) (hreply : result.2.reply = none)
    (hdelivered : result.2.delivered = none) : LogAfter m may a id sv input result := by
  refine .steered hinv h hs (fun a' hgrows hpers => ⟨fun _ => hcanvass, ?_, ?_⟩) (fun a' hgrows hsnap => ?_)
    hcalls hreply (fun cmd i hd => ?_)
  · rw [hmain]
    nofun
  · rw [hmain]
    nofun
  · rw [happlier]
    exact h.applier.mono hinv hgrows hsnap
  · rw [hdelivered] at hd
    cases hd

/-- A restarted server. -/
theorem ServerLog.reboot (hinv : LogInvariant m.quorums a) (h : ServerLog a id sv) {input : Input}
    {effects : Effects} (hcalls : effects.calls = []) (hreply : effects.reply = none)
    (hdelivered : effects.delivered = none) (hover : input = .restart ∨ effects.lost ≠ none) :
    LogAfter m may a id sv input (sv.reboot sv.disk, effects) := by
  obtain ⟨a', hpath, hmirror⟩ : ∃ a', LogPath m may id a a' ∧
      LogMirror a' id (newNode sv.node.id sv.node.peers sv.disk) sv.disk := h.log.restart hinv _ _
  have hboot : LogMirror a' id (sv.reboot sv.disk).node sv.disk :=
    hmirror.keep rfl rfl rfl rfl fun hl => ⟨hl, rfl, rfl, rfl⟩
  have hrole : (sv.reboot sv.disk).node.role = .follower := newNode_role ..
  refine .silent hpath ⟨hboot, .rest (Or.inl rfl), trivial⟩ hcalls hreply hdelivered (fun hne hnone => ?_)
    (fun hl => ?_) fun _ hl => ?_
  · rcases hover with hr | hl
    · exact absurd hr hne
    · exact absurd hnone hl
  · rw [hrole] at hl
    cases hl
  · rw [hrole] at hl
    cases hl

/-- Performing a section without storage faults: where it panics, the disk is as it was. -/
theorem ServerLog.perform {A : Type} (hinv : LogInvariant m.quorums a) (h : ServerLog a id sv)
    {p : Section A} {next : A → PersistentState → Server × Effects} {Q : A → PersistentState → Prop}
    {input : Input} (hp : p.Ensures False (· = sv.disk) Q sv.disk)
    (hnext : ∀ r disk, Q r disk → LogAfter m may a id sv input (next r disk)) :
    LogAfter m may a id sv input (sv.perform [] p next) := by
  refine Server.perform_rule hp (Or.inr rfl) hnext fun b disk hdisk => ?_
  rw [hdisk]
  exact h.reboot hinv rfl rfl rfl (Or.inr nofun)

/-- What the environment contributes to a step is backed by the replicated log. -/
structure InputLog (m : Membership) (may : RaftLog → String → ℕ → Prop) (a : RaftLog) (id : String)
    (sv : Server) (input : Input) : Prop where
  request : ∀ req, input = .receive req → ∃ caller, CallBacked a caller req ∧ id ≠ caller ∧
    (∀ r, req = .vote r → r.candidateID = caller ∧ caller ≠ "") ∧
    ∀ r, req = .install r → Permitted may id caller sv.node r
  append : ∀ send req resp, input = .appendAnswered send.handle resp → send ∈ sv.sends →
    send.phase = .waitingAppend req →
    CallBacked a id (.append req) ∧ ReplyBacked a send.peer (.append req) (.append resp)
  install : ∀ send req resp, input = .installAnswered send.handle resp → send ∈ sv.sends →
    send.phase = .waitingInstall req → CallBacked a id (.install req)
  quorum : ∀ handle resp poll, input = .voteAnswered handle resp → sv.main = .polling poll →
    handle ∈ poll.awaiting → a.standing id = .candidate → poll.request.term = a.term id →
    poll.majority ≤ (if resp.voteGranted then poll.votes + 1 else poll.votes) →
    ∃ Q, m.quorums.IsQuorum Q ∧ ∀ v ∈ Q, a.ballot (a.term id) v = some id
  snapshot : ∀ index data, input = .takeSnapshot index data → index ≤ sv.node.lastApplied

/-- A handler's step. -/
theorem ServerLog.handled {R : Type} (hinv : LogInvariant m.quorums a) (h : ServerLog a id sv)
    {req : Request} {wrap : R → Reply} {r : Node × Except RaftError R} {disk : PersistentState}
    (hanswered : Answered m may a id sv.node req wrap r disk) :
    LogAfter m may a id sv (.receive req) (Server.onDisk disk (sv.handled wrap r)) := by
  obtain ⟨a', hrun, hmirror, hpers, happlied, hcommit, hreply⟩ := hanswered
  have hgrows := LogPath.grows hinv hrun.path
  have hevolves := h.log.evolves hmirror hrun.advances happlied
  have hserver : ServerLog a' id { sv with node := r.1, disk := disk } :=
    ⟨hmirror, h.main.persist hinv hgrows hpers, h.applier.mono hinv hgrows hevolves.snapshotIndex⟩
  have hrecorded : ∀ effects : Effects, effects.delivered = none → Recorded a' {
      id := id, input := .receive req, before := sv, after := { sv with node := r.1, disk := disk },
      effects := effects } := by
    refine fun effects hnone => ⟨fun cmd i hd => ?_, fun _ _ => hevolves, fun hl hlt => ?_, fun hbefore hl => ?_⟩
    · rw [hnone] at hd
      cases hd
    · have hlt' : sv.node.commitIndex < r.1.commitIndex := hlt
      rw [hcommit hl] at hlt'
      exact absurd hlt' (Int.lt_irrefl _)
    · have hl' : r.1.role = .leader := hl
      rcases hpers with hf | ⟨hsame, _⟩
      · rw [hf] at hl'
        cases hl'
      · exact absurd (hsame.symm.trans hl') hbefore
  rcases r with ⟨node, err | resp⟩
  · refine ⟨a', hrun.path, hserver, nofun, fun _ _ _ hr => ?_, hrecorded _ rfl⟩
    cases hr
  · refine ⟨a', hrun.path, hserver, nofun, fun req' reply hreq hr => ?_, hrecorded _ rfl⟩
    cases hreq
    cases hr
    exact hreply resp rfl

/-- Handlers mirror the replicated log. -/
theorem ServerLog.receive (hinv : LogInvariant m.quorums a) (h : ServerLog a id sv) {req : Request}
    (hin : InputLog m may a id sv (.receive req)) :
    LogAfter m may a id sv (.receive req) (sv.carryOut [] (sv.planReceive req)) := by
  obtain ⟨caller, hback, hother, hvote, hinstall⟩ := hin.request req rfl
  cases req with
  | vote req =>
    obtain ⟨rfl, hname⟩ := hvote req rfl
    exact h.perform hinv (h.log.handleRequestVote hinv hname hback) fun r disk hr => h.handled hinv hr
  | append req =>
    exact h.perform hinv (h.log.handleAppendEntries hinv hback hother) fun r disk hr => h.handled hinv hr
  | install req =>
    exact h.perform hinv (h.log.handleInstallSnapshot hinv hback hother (hinstall req rfl))
      fun r disk hr => h.handled hinv hr

/-- Handlers do not panic. -/
theorem ServerLog.receive_lost (hinv : LogInvariant m.quorums a) (h : ServerLog a id sv) {req : Request}
    (hin : InputLog m may a id sv (.receive req)) {fresh : ℕ} {result : Server × Effects}
    (hmove : sv.Move fresh [] (.receive req) result) : result.2.lost = none := by
  have hnot : ∀ {R : Type} {p : Section (Node × Except RaftError R)} {wrap : R → Reply} {r : Request},
      p.Ensures False (fun _ => False) (Answered m may a id sv.node r wrap) sv.disk →
      (sv.perform [] p fun r disk => Server.onDisk disk (sv.handled wrap r)).2.lost = none := by
    intro R p wrap r hp
    refine Server.perform_rule (P := fun result => result.2.lost = none) hp (Or.inr rfl) ?_ nofun
    rintro ⟨node, err | resp⟩ disk _ <;> rfl
  obtain ⟨caller, hback, hother, hvote, hinstall⟩ := hin.request req rfl
  cases hmove
  cases req with
  | vote req =>
    obtain ⟨rfl, hname⟩ := hvote req rfl
    exact hnot (h.log.handleRequestVote hinv hname hback)
  | append req => exact hnot (h.log.handleAppendEntries hinv hback hother)
  | install req => exact hnot (h.log.handleInstallSnapshot hinv hback hother (hinstall req rfl))

/-- Starting an election. -/
theorem ServerLog.startElection (hinv : LogInvariant m.quorums a) (h : ServerLog a id sv)
    (hself : sv.node.id = id) (hname : id ≠ "") (hmain : sv.main = .starting) {input : Input} :
    LogAfter m may a id sv input (sv.carryOut [] sv.planStartElection) := by
  have hrole : sv.node.role ≠ .leader := by
    intro hl
    have := h.main.office hl
    rw [hmain] at this
    cases this
  have hopened : sv.node.startElection.Ensures False (· = sv.disk) (Opened m may a id sv.node) sv.disk :=
    h.log.startElection hinv hself hname hrole
  refine h.perform hinv hopened ?_
  rintro ⟨node, req?⟩ disk ⟨a', req, hreq, hrun, hmirror, hback, hterm, hsame, hhistory, hst⟩
  cases hreq
  have hgrows := LogPath.grows hinv hrun.path
  simp only [Node.history, Prod.mk.injEq] at hhistory
  have hevolves := h.log.evolves hmirror hrun.advances (le_of_eq hhistory.2.2.2.2.2.1.symm)
  have hnot : node.role ≠ .leader := fun hl => hrole (hsame.symm.trans hl)
  refine .silent hrun.path ⟨hmirror, ⟨fun hl => absurd hl hnot, fun r hr => ?_, fun hc r hr => ?_⟩,
    h.applier.mono hinv hgrows hevolves.snapshotIndex⟩ rfl rfl rfl (fun _ _ => hevolves)
    (fun hl => absurd hl hnot) fun _ hl => absurd hl hnot
  · cases hr
    exact hback
  · cases hr
    exact ⟨hterm, hst (hsame.symm.trans hc)⟩

/-- Reading a vote: a counted majority is a victory. -/
theorem ServerLog.voteAnswered (hinv : LogInvariant m.quorums a) (h : ServerLog a id sv) {poll : Poll}
    {handle : ℕ} {resp : RequestVoteResponse} (hmain : sv.main = .polling poll)
    (hawaited : handle ∈ poll.awaiting) (hin : InputLog m may a id sv (.voteAnswered handle resp)) :
    LogAfter m may a id sv (.voteAnswered handle resp) (sv.carryOut [] (sv.planVoteAnswered poll handle resp)) := by
  have hcampaign : sv.main.campaign = some poll.request := by rw [hmain]; rfl
  refine h.perform (Q := fun r d' => (r.2 = none ∧ Steered m may a id sv.node r.1 d') ∨
    (r.1 = sv.node ∧ d' = sv.disk ∧ ∃ k, r.2 = some k) ∨
    (r.2 = none ∧ r.1.role = .leader ∧ r.1.history = sv.node.history ∧
      ∃ a', LogRun m may id a a' ∧ LogMirror a' id r.1 d')) hinv ?_ ?_
  · refine Node.handleVoteResponse_rule
      (fun hterm => (h.log.stepDown hinv hterm).mono (fun _ hl => hl) fun _ _ hs => Or.inl ⟨rfl, hs⟩)
      (fun _ _ => Or.inl ⟨rfl, h.log.unchanged⟩)
      (fun _ hc hmajority => Or.inr (Or.inr ⟨rfl, rfl, rfl, ?_⟩))
      (fun _ _ => Or.inr (Or.inl ⟨rfl, rfl, _, rfl⟩))
    obtain ⟨hreq, hst⟩ := h.main.campaign hc poll.request hcampaign
    have hself : poll.request.term = a.term id := hreq.trans h.log.ballots.term
    obtain ⟨Q, hQ, hballots⟩ := hin.quorum handle resp poll rfl hmain hawaited hst hself hmajority
    exact h.log.win hinv hst hQ hballots
  · rintro ⟨node, votes⟩ disk
      (⟨hnone, hs⟩ | ⟨rfl, rfl, k, hsome⟩ | ⟨hnone, hrole, hhistory, a', hrun, hmirror⟩)
    · cases hnone
      exact h.turn hinv hs rfl rfl rfl nofun rfl rfl
    · cases hsome
      refine .steered hinv h h.log.unchanged (fun a' hgrows hpers => ?_)
        (fun a' hgrows hsnap => h.applier.mono hinv hgrows hsnap) nofun rfl nofun
      have hm := h.main.persist hinv hgrows hpers
      refine ⟨fun hl => ?_, fun r hr => hm.poll r (hr ▸ hcampaign), fun hc r hr => hm.campaign hc r (hr ▸ hcampaign)⟩
      have := hm.office hl
      rw [hmain] at this
      cases this
    · cases hnone
      have hgrows := LogPath.grows hinv hrun.path
      have hinv' := LogPath.invariant hinv hrun.path
      simp only [Node.history, Prod.mk.injEq] at hhistory
      have hevolves := h.log.evolves hmirror hrun.advances (le_of_eq hhistory.2.2.2.2.2.1.symm)
      refine .silent hrun.path
        ⟨hmirror, .rest (Or.inl rfl), h.applier.mono hinv hgrows hevolves.snapshotIndex⟩ rfl rfl rfl
        (fun _ _ => hevolves) (fun _ hlt => ?_) fun _ hl => hmirror.elected hinv' hl
      have hlt' : sv.node.commitIndex < node.commitIndex := hlt
      rw [hhistory.2.2.2.1] at hlt'
      exact absurd hlt' (Int.lt_irrefl _)

/-- Entering the loop of the current role. -/
theorem ServerLog.dispatch (hinv : LogInvariant m.quorums a) (h : ServerLog a id sv) {input : Input} :
    LogAfter m may a id sv input (Server.onDisk sv.disk (sv.dispatch, {})) := by
  have hplain : ∀ main : MainLoop, main.campaign = none →
      (sv.node.role = .leader → main.canvassing = false) →
      LogAfter m may a id sv input ({ sv with main := main }, {}) := by
    intro main hcampaign hoffice
    refine .steered hinv h h.log.unchanged (fun a' hgrows _ => ⟨hoffice, ?_, ?_⟩)
      (fun a' hgrows hsnap => h.applier.mono hinv hgrows hsnap) nofun rfl nofun
    · rw [hcampaign]
      nofun
    · rw [hcampaign]
      nofun
  unfold NodeProcess.dispatch
  split
  · exact hplain .stopped rfl fun _ => rfl
  · cases hrole : sv.node.role with
    | follower => exact hplain .following rfl (by rw [hrole]; nofun)
    | candidate => exact hplain .starting rfl (by rw [hrole]; nofun)
    | leader => exact hplain (.leading []) rfl fun _ => rfl

/-- A step of the apply loop. -/
theorem ServerLog.apply (hinv : LogInvariant m.quorums a) (h : ServerLog a id sv) {input : Input}
    {result : Server × Effects} (hs : Steered m may a id sv.node result.1.node result.1.disk)
    (hmain : result.1.main = sv.main)
    (happlier : ∀ a', a.Grows a' → sv.node.snapshotIndex ≤ result.1.node.snapshotIndex →
      ApplierLog a' result.1.node result.1.applier)
    (hcalls : result.2.calls = []) (hreply : result.2.reply = none)
    (hdelivered : ∀ cmd i, result.2.delivered = some (.command cmd i) →
      ∃ e, Decided a i e ∧ e.command = cmd) : LogAfter m may a id sv input result := by
  refine .steered hinv h hs (fun a' hgrows hpers => ?_) happlier (fun call hcall => ?_) hreply hdelivered
  · rw [hmain]
    exact h.main.persist hinv hgrows hpers
  · rw [hcalls] at hcall
    cases hcall

/-- Every step of a server without storage faults mirrors the replicated log. -/
theorem ServerLog.move (hinv : LogInvariant m.quorums a) (h : ServerLog a id sv) (hid : id ∈ m.ids)
    {calls : List Call} {replies : List (ℕ × Reply)} (hwired : ServerWired m calls replies id sv)
    {fresh : ℕ} {input : Input} {result : Server × Effects} (hin : InputLog m may a id sv input)
    (hmove : sv.Move fresh [] input result) : LogAfter m may a id sv input result := by
  have hplaced := hwired.placed
  -- steps that change nothing the replicated log speaks about
  have hquiet : ∀ {node : Node}, node.history = sv.node.history →
      node.currentTerm = sv.node.currentTerm → node.votedFor = sv.node.votedFor →
      node.degraded = sv.node.degraded → node.role = sv.node.role → node.peers = sv.node.peers →
      node.matchIndex = sv.node.matchIndex → node.nextIndex = sv.node.nextIndex →
      Steered m may a id sv.node node sv.disk :=
    fun h₁ h₂ h₃ h₄ h₅ h₆ h₇ h₈ => h.log.steered h₁ h₂ h₃ h₄ h₅ h₆ h₇ h₈
  cases hmove with
  | restart => exact h.reboot hinv rfl rfl rfl (Or.inl rfl)
  | dispatch => exact h.dispatch hinv
  | electionReset => exact h.steer hinv (hquiet rfl rfl rfl rfl rfl rfl rfl rfl) rfl rfl rfl rfl rfl
  | electionTimeout hmain =>
    have hmirror : LogMirror a id sv.node.convertToCandidate sv.disk :=
      h.log.keep rfl rfl rfl rfl fun hl => by cases hl
    exact .silent (.refl a)
      ⟨hmirror, .rest (Or.inl rfl), h.applier.mono hinv (.refl a) (Int.le_refl _)⟩ rfl rfl rfl
      (fun _ _ => h.log.evolves hmirror (.refl a id) (Int.le_refl _)) (fun hl => by cases hl) fun _ hl => by cases hl
  | startElection hmain =>
    exact h.startElection hinv hplaced.self (fun hempty => m.nonempty (hempty ▸ hid)) hmain
  | @openPoll req hmain =>
    have hcampaign : sv.main.campaign = some req := by rw [hmain]; rfl
    refine .steered hinv h h.log.unchanged (fun a' hgrows hpers => ?_)
      (fun a' hgrows hsnap => h.applier.mono hinv hgrows hsnap) (fun call hcall => ?_) rfl fun _ _ hd => by cases hd
    · have hm := h.main.persist hinv hgrows hpers
      refine ⟨fun hl => ?_, fun r hr => hm.poll r (hr ▸ hcampaign),
        fun hc r hr => hm.campaign hc r (hr ▸ hcampaign)⟩
      have := hm.office hl
      rw [hmain] at this
      cases this
    · obtain ⟨peer, _, rfl⟩ := List.mem_map.mp hcall
      exact h.main.poll req hcampaign
  | voteAnswered hmain hawaited => exact h.voteAnswered hinv hmain hawaited hin
  | pollTimeout => exact h.turn hinv h.log.unchanged rfl rfl rfl (List.forall_mem_nil _) rfl rfl
  | startRoundNotified hmain =>
    exact h.turn hinv (hquiet rfl rfl rfl rfl rfl rfl rfl rfl) rfl rfl rfl (List.forall_mem_nil _) rfl rfl
  | startRound hmain => exact h.turn hinv h.log.unchanged rfl rfl rfl (List.forall_mem_nil _) rfl rfl
  | @visit peer todo hmain hpeer =>
    have hsending : (sv.node.installSnapshotRequestForPeer peer).Ensures False (· = sv.disk)
        (Sending m may a id sv.node .install) sv.disk := h.log.installSnapshotRequestForPeer hinv peer
    refine h.perform hinv hsending ?_
    rintro ⟨node, _ | _ | req⟩ disk ⟨hs, hback⟩
    · exact h.turn hinv hs rfl rfl rfl (List.forall_mem_nil _) rfl rfl
    · exact h.turn hinv hs rfl rfl rfl (List.forall_mem_nil _) rfl rfl
    · refine h.turn hinv hs rfl rfl rfl (fun call hcall => ?_) rfl rfl
      rw [List.mem_singleton.mp hcall]
      exact hback req rfl
  | @appendTurn peer todo hmain =>
    have hpeer : peer ∈ sv.node.peers := by
      have hturn := hwired.main
      rw [hmain] at hturn
      rw [hplaced.peers]
      exact hturn peer List.mem_cons_self
    have hsending : (sv.node.appendEntriesRequestForPeer peer).Ensures False (· = sv.disk)
        (Sending m may a id sv.node .append) sv.disk := h.log.appendEntriesRequestForPeer hinv (by rfl) hpeer
    refine h.perform hinv hsending ?_
    rintro ⟨node, _ | _ | req⟩ disk ⟨hs, hback⟩
    · exact h.turn hinv hs rfl rfl rfl (List.forall_mem_nil _) rfl rfl
    · exact h.turn hinv hs rfl rfl rfl (List.forall_mem_nil _) rfl rfl
    · refine h.turn hinv hs rfl rfl rfl (fun call hcall => ?_) rfl rfl
      rw [List.mem_singleton.mp hcall]
      exact hback req rfl
  | @appendAnswered send req resp hsend hphase =>
    obtain ⟨hcall, hreply⟩ := hin.append send req resp rfl hsend hphase
    exact h.perform hinv (h.log.handleAppendEntriesResponse hinv hplaced hid hcall hreply)
      fun r disk hs => h.steer hinv hs rfl rfl rfl rfl rfl
  | @installAnswered send req resp hsend hphase =>
    have hcall := hin.install send req resp rfl hsend hphase
    exact h.perform hinv (h.log.handleInstallSnapshotResponse hinv hcall)
      fun r disk hs => h.steer hinv hs rfl rfl rfl rfl rfl
  | callFailed => exact h.steer hinv h.log.unchanged rfl rfl rfl rfl rfl
  | signal =>
    refine h.steer hinv ?_ rfl rfl rfl rfl rfl
    simp only [NodeProcess.stepSignal]
    split <;> split <;> exact hquiet rfl rfl rfl rfl rfl rfl rfl rfl
  | finish | notify => exact h.steer hinv (hquiet rfl rfl rfl rfl rfl rfl rfl rfl) rfl rfl rfl rfl rfl
  | receive req => exact h.receive hinv hin
  | startCommand cmd =>
    exact h.perform hinv (h.log.startCommand hinv hplaced hid cmd)
      fun r disk hs => h.steer hinv hs rfl rfl rfl rfl rfl
  | takeSnapshot index data =>
    have hsteered : (sv.node.takeSnapshot index data).Ensures False (· = sv.disk)
        (fun r d' => Steered m may a id sv.node r.1 d') sv.disk :=
      h.log.takeSnapshot hinv (hin.snapshot index data rfl) data
    refine h.perform hinv hsteered ?_
    rintro ⟨node, err | ⟨⟨⟩⟩⟩ disk hs <;> exact h.steer hinv hs rfl rfl rfl rfl rfl
  | wakeApply =>
    exact h.apply hinv (hquiet rfl rfl rfl rfl rfl rfl rfl rfl) rfl (fun _ _ _ => trivial) rfl rfl
      fun _ _ hd => by cases hd
  | drain =>
    refine h.apply hinv (h.log.applying (Int.le_refl _) h.log.logs.applied fun _ hs => by cases hs) rfl
      (fun a' _ _ => ?_) rfl rfl fun _ _ hd => by cases hd
    simp only [NodeProcess.stepDrain, Node.takePendingSnapshot]
    cases hp : sv.node.pendingSnapshot with
    | none => trivial
    | some snap => exact h.log.logs.pending snap hp
  | @sendSnapshot snap happlier =>
    refine h.apply hinv h.log.unchanged rfl (fun a' _ _ => ?_) rfl rfl fun _ _ hd => by cases hd
    have hheld := h.applier
    rw [happlier] at hheld
    exact hheld
  | @recordSnapshot snap happlier =>
    have hheld : snap.lastIncludedIndex ≤ sv.node.snapshotIndex := by
      have := h.applier
      rwa [happlier] at this
    have hsnap := hinv.snap_le id
    have hindex := h.log.logs.window.index
    have hcommit := h.log.logs.commit
    have happlied := h.log.logs.applied
    refine h.apply hinv (h.log.applying (n := sv.node) ?_ ?_ h.log.logs.pending) rfl (fun _ _ _ => trivial)
      rfl rfl fun _ _ hd => by cases hd
    · split <;> omega
    · split <;> omega
  | pickEntry =>
    have hpicked : sv.node.nextToApply.Ensures False (· = sv.disk) (Picked m may a id sv.node) sv.disk :=
      h.log.nextToApply hinv (by rfl)
    refine h.perform hinv hpicked ?_
    rintro ⟨node, _ | ⟨entry, index⟩⟩ disk ⟨hs, hdecided⟩
    · exact h.apply hinv hs rfl (fun _ _ _ => trivial) rfl rfl fun _ _ hd => by cases hd
    · exact h.apply hinv hs rfl (fun a' hgrows _ => (hdecided entry index rfl).mono hinv hgrows) rfl rfl
        fun _ _ hd => by cases hd
  | @sendEntry entry index happlier =>
    have hdecided : Decided a index entry := by
      have := h.applier
      rwa [happlier] at this
    refine h.apply hinv h.log.unchanged rfl (fun _ _ _ => trivial) rfl rfl fun cmd i hd => ?_
    cases hd
    exact ⟨entry, hdecided, rfl⟩

/-- A cluster follows the replicated log. -/
structure LogRefines (m : Membership) (c : Cluster) (a : RaftLog) : Prop where
  wired : Wired m c
  servers : ∀ id ∈ m.ids, ServerLog a id (c.servers id)
  calls : ∀ call ∈ c.calls, CallBacked a call.caller call.request
  replies : ∀ handle call reply, c.calls[handle]? = some call → (handle, reply) ∈ c.replies →
    ReplyBacked a call.callee call.request reply
  trace : ∀ tr ∈ c.trace, Recorded a tr
  served : ∀ tr ∈ c.trace, ∀ req, tr.input = .receive req → tr.effects.lost = none

/-- The compaction that an action asks for: of whose log, and up to which index. -/
def Action.compaction : Action → Option (String × Int)
  | .act id (.takeSnapshot index _) _ => some (id, index)
  | _ => none

/-- All storage calls succeed, and the state machine compacts only what has been applied. -/
def Undisturbed (c : Cluster) (act : Action) : Prop :=
  act.fates = [] ∧ ∀ p ∈ act.compaction, p.2 ≤ (c.servers p.1).node.lastApplied

instance (c : Cluster) (act : Action) : Decidable (Undisturbed c act) :=
  inferInstanceAs (Decidable (_ ∧ _))

/-- Whatever snapshot an action makes a node install may be installed. -/
def InstallsPermitted (m : Membership) (may : RaftLog → String → ℕ → Prop) (c : Cluster) (act : Action) :
    Prop :=
  ∀ handle fates call req, act = .deliver handle fates → c.calls[handle]? = some call →
    call.request = .install req → call.callee ∈ m.ids →
    Permitted may call.callee call.caller (c.servers call.callee).node req

/-- A candidate whose count reaches the majority has the ballots of a quorum. -/
theorem LogRefines.quorum {c : Cluster} (h : LogRefines m c a) (hinv : LogInvariant m.quorums a)
    (hid : id ∈ m.ids) {poll : Poll} {handle : ℕ} {resp : RequestVoteResponse}
    (hmain : (c.servers id).main = .polling poll) (hawaited : handle ∈ poll.awaiting)
    (hreply : (handle, Reply.vote resp) ∈ c.replies) (hst : a.standing id = .candidate)
    (hterm : poll.request.term = a.term id)
    (hmajority : poll.majority ≤ if resp.voteGranted then poll.votes + 1 else poll.votes) :
    ∃ Q, m.quorums.IsQuorum Q ∧ ∀ v ∈ Q, a.ballot (a.term id) v = some id := by
  have hpoll : PollWired m c.calls c.replies id poll := by
    have := (h.wired.servers id hid).main
    rwa [hmain] at this
  obtain ⟨voters, hQ, hgranted⟩ := hpoll.quorum hid hawaited hreply hmajority
  refine ⟨voters, hQ, fun v hv => ?_⟩
  rcases hgranted v hv with rfl | ⟨handle', resp', hcall, hreply', hgr⟩
  · exact hinv.election.own_ballot v (by rw [hst]; nofun)
  · obtain ⟨t, ht, hballot⟩ := h.replies handle' _ _ hcall hreply' hgr
    have htt : t = a.term id := Int.ofNat_inj.mp (ht.symm.trans hterm)
    rw [hpoll.candidate, htt] at hballot
    exact hballot

/-- What the network and the state machine contribute to a step is backed by the replicated log. -/
theorem LogRefines.input {c : Cluster} (h : LogRefines m c a) (hinv : LogInvariant m.quorums a)
    {act : Action} {input : Input} {served : Option ℕ} (hcalm : Undisturbed c act)
    (hinstalls : InstallsPermitted m may c act) (hsource : Cluster.Source m.ids c act id input served) :
    InputLog m may a id (c.servers id) input where
  request req hreq := by
    cases hsource with
    | act hid hlocal =>
      subst hreq
      cases hlocal
    | deliver hcall =>
      have hmem := List.mem_of_getElem? hcall
      have hwired := h.wired.calls _ hmem
      cases hreq
      refine ⟨_, h.calls _ hmem, hwired.distinct, fun r hr => ⟨hwired.vote r hr, ?_⟩, fun r hr => ?_⟩
      · exact fun hempty => m.nonempty (hempty ▸ hwired.caller)
      · exact hinstalls _ _ _ r rfl hcall hr hwired.callee
    | @answer handle call reply fates hcall hreply => cases reply <;> cases hreq
  append send req resp hanswer hsend hphase := by
    have hin := h.wired.source hsource
    have hcall := ((h.wired.servers id hin.1).sends send hsend).append req hphase
    have hreply : (send.handle, Reply.append resp) ∈ c.replies := hsource.answered hanswer
    exact ⟨h.calls _ (List.mem_of_getElem? hcall), h.replies _ _ _ hcall hreply⟩
  install send req resp hanswer hsend hphase := by
    have hin := h.wired.source hsource
    exact h.calls _ (List.mem_of_getElem? (((h.wired.servers id hin.1).sends send hsend).install req hphase))
  quorum handle resp poll hvote hmain hawaited hst hterm hmajority := by
    have hin := h.wired.source hsource
    exact h.quorum hinv hin.1 hmain hawaited (hin.2.vote handle resp hvote) hst hterm hmajority
  snapshot index data hinput := by
    cases hsource with
    | act hid hlocal =>
      subst hinput
      exact hcalm.2 (id, index) rfl
    | deliver => cases hinput
    | @answer handle call reply fates hcall hreply => cases reply <;> cases hinput

/-- Every undisturbed step of a cluster is followed by steps of the replicated log. -/
theorem LogRefines.step {c c' : Cluster} (h : LogRefines m c a) (hinv : LogInvariant m.quorums a)
    {act : Action} (hcalm : Undisturbed c act) (hinstalls : InstallsPermitted m may c act)
    (hstep : c.step m.ids act = some c') :
    ∃ a', Relation.ReflTransGen (LogStep m.quorums may) a a' ∧ LogRefines m c' a' := by
  have hwired' := h.wired.step hstep
  obtain ⟨id, input, served, after, effects, hsource, hmove, rfl⟩ := Cluster.step_cases hstep
  have hid := (h.wired.source hsource).1
  rw [hcalm.1] at hmove
  have hin := h.input hinv hcalm hinstalls hsource
  obtain ⟨a', hpath, hserver, hcalls, hreplies, hrecorded⟩ :=
    (h.servers id hid).move hinv hid (h.wired.servers id hid) hin hmove
  have hgrows := LogPath.grows hinv hpath
  refine ⟨a', hpath.path, hwired', fun other hother => ?_, fun call hcall => ?_,
    fun handle call reply hcall hreply => ?_, fun tr htr => ?_, fun tr htr req hreq => ?_⟩
  · by_cases heq : other = id
    · subst other
      rw [Cluster.record_servers_self]
      exact hserver
    · rw [Cluster.record_servers_of_ne _ _ _ _ _ heq]
      exact (h.servers other hother).mono hinv hgrows (hpath.others other heq)
  · rcases List.mem_append.mp hcall with hold | hnew
    · exact (h.calls call hold).mono hinv hgrows
    · obtain ⟨started, hstarted, rfl⟩ := List.mem_map.mp hnew
      exact hcalls started hstarted
  · rcases Cluster.mem_record_replies hreply with hold | ⟨rfl, hreplied⟩
    · have hcall' := h.wired.answered hold (List.prefix_append ..) hcall
      exact (h.replies handle call reply hcall' hold).mono (h.calls call (List.mem_of_getElem? hcall')) hgrows
    · obtain ⟨call₀, hcall₀, rfl, rfl⟩ := hsource.serves
      have hsame : call₀ = call :=
        Option.some.inj ((getElem?_of_initial (List.prefix_append ..) hcall₀).symm.trans hcall)
      subst call₀
      exact hreplies call.request reply rfl hreplied
  · rcases List.mem_cons.mp htr with rfl | hold
    · exact hrecorded
    · exact (h.trace tr hold).mono hinv hgrows
  · rcases List.mem_cons.mp htr with rfl | hold
    · cases hreq
      exact (h.servers id hid).receive_lost hinv hin hmove
    · exact h.served tr hold req hreq

/-- The replicated log before anything has happened. -/
def firstLog : RaftLog where
  term _ := 0
  standing _ := .follower
  ballot _ _ := none
  leader _ := none
  polled _ _ := none
  log _ := []
  snap _ := 0
  commit _ := 0
  leaderLog _ := []
  leaderCommit _ := 0
  acked _ _ := 0
  chosen _ _ := False

/-- Nothing has happened in it. -/
theorem firstLog_first : firstLog.First :=
  ⟨⟨fun _ => rfl, fun _ _ => rfl, fun _ => rfl⟩, fun _ _ => rfl, fun _ => rfl, fun _ => rfl, fun _ => rfl,
    fun _ _ => rfl, fun _ _ => nofun⟩

/-- A node started over empty storage mirrors the replicated log before anything has happened. -/
theorem logMirror_first (id : String) (peers : List String) :
    LogMirror firstLog id (newNode id peers .empty) .empty := by
  have hindex : (newNode id peers .empty).snapshotIndex = 0 := newNode_snapshotIndex ..
  have hlog : (newNode id peers .empty).log = [] := (newNode_log ..).trans List.drop_nil
  have hcommit : (newNode id peers .empty).commitIndex = 0 := by
    rw [newNode_commitIndex, Node.lastLogIndex, hindex, hlog]
    rfl
  refine ⟨⟨newNode_currentTerm .., ?_, newNode_degraded ..⟩, ⟨⟨Nat.le_refl _, hindex, newNode_snapshotTerm ..,
    hlog⟩, hcommit, ?_, fun hne => absurd hindex hne, ?_, ?_⟩, ?_, ⟨(newNode_currentTerm ..).symm,
    (newNode_votedFor ..).symm, hindex.symm, hlog.symm, (newNode_snapshot ..).symm, fun _ => hcommit.symm⟩⟩
  · rw [newNode_votedFor]
    rfl
  · rw [newNode_snapshot]
    exact fun _ hsnap => by cases hsnap
  · rw [hcommit]
    exact Int.le_of_eq (newNode_lastApplied ..)
  · rw [newNode_pendingSnapshot]
    exact fun _ hpending => by cases hpending
  · rw [newNode_role]
    exact fun hl => by cases hl

/-- A new cluster follows the replicated log. -/
theorem logRefines_first (m : Membership) : LogRefines m (Cluster.first m.ids) firstLog where
  wired := wired_first m
  servers id _ := by
    refine ⟨(logMirror_first id m.ids).keep rfl rfl rfl rfl fun hl => ⟨hl, rfl, rfl, rfl⟩,
      .rest (Or.inl rfl), trivial⟩
  calls call hcall := absurd hcall List.not_mem_nil
  replies handle call reply hcall hreply := absurd hreply List.not_mem_nil
  trace tr htr := absurd htr List.not_mem_nil
  served tr htr := absurd htr List.not_mem_nil

/-- Every state that undisturbed runs reach follows the replicated log. -/
theorem logRefines_of_reachable {allowed : Cluster → Action → Prop}
    (hcalm : ∀ c act, allowed c act → Undisturbed c act)
    (hinstalls : ∀ c act, allowed c act → InstallsPermitted m may c act) {c : Cluster}
    (run : ClusterReachable m allowed c) :
    ∃ a, Reachable LogState.First (LogStep m.quorums may) a ∧ LogRefines m c a := by
  refine Reachable.simulate ?_ ?_ run
  · rintro c rfl
    exact ⟨firstLog, firstLog_first, logRefines_first m⟩
  · rintro c c' a hrun h ⟨act, hallowed, hstep⟩
    exact h.step (logInvariant_of_reachable hrun) (hcalm c act hallowed) (hinstalls c act hallowed) hstep

end ConsensusLab.Raft
