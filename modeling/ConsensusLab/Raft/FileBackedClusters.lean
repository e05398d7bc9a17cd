import ConsensusLab.Raft.FileServices
import ConsensusLab.Raft.Wiring

/-!
# Clusters whose nodes keep their state in files

The cluster once more, with nodes as `main` starts them: on a `JSONStorage`. A storage call
is now a program on the file system, in which any number of calls can fail. A process can be
lost alone, and then the next start finds the directory as it was left, or with its machine,
and then it finds what the disk has kept. What a process does between its storage calls is
what it does in the cluster over abstract storage, of which the file-backed cluster turns
out to be an implementation as long as no process is killed, on a machine that stays up,
between the rename of a file and the sync of its directory.
-/

namespace ConsensusLab.Raft

open Foundation StorageProgram

/-- The section of a plan calls no storage. -/
def NodeProcess.Plan.Quiet : Plan → Prop
  | .immediate _ => True
  | .critical program _ => program.Quiet

/-- The process starts no calls behind the section of a plan. -/
def NodeProcess.Plan.Silent : Plan → Prop
  | .immediate (_, effects) => effects.calls = []
  | .critical _ next => ∀ a, (next a).2.calls = []

/-- A step starts no calls, or has called no storage. -/
theorem NodeProcess.quiet_or_silent {p : NodeProcess} {fresh : ℕ} {input : Input} {plan : Plan}
    (h : p.plan fresh input = some plan) : plan.Quiet ∨ plan.Silent := by
  cases plan with
  | immediate result => exact Or.inl trivial
  | critical program next =>
  cases input with
  | visit peer =>
    simp only [NodeProcess.plan] at h
    split at h
    · split at h
      · cases h
        refine Or.inl ?_
        simp only [Plan.Quiet, Node.installSnapshotRequestForPeer]
        split
        · trivial
        · split
          · trivial
          · split
            · trivial
            · split <;> trivial
      · cases h
    · cases h
  | appendTurn =>
    simp only [NodeProcess.plan] at h
    split at h
    · cases h
      refine Or.inl ?_
      simp only [Plan.Quiet, Node.appendEntriesRequestForPeer]
      split
      · trivial
      · split
        · trivial
        · split <;> trivial
    · cases h
  | receive req =>
    cases req <;> cases h <;> exact Or.inr fun r => by obtain ⟨_, _ | _⟩ := r <;> rfl
  | takeSnapshot index data =>
    cases h
    refine Or.inr fun r => ?_
    obtain ⟨_, _ | _⟩ := r <;> rfl
  | startCommand cmd =>
    cases h
    exact Or.inr fun _ => rfl
  | startElection | pickEntry =>
    simp only [NodeProcess.plan] at h
    split at h
    · cases h
      exact Or.inr fun _ => rfl
    · cases h
  | voteAnswered handle resp | appendAnswered handle resp | installAnswered handle resp =>
    simp only [NodeProcess.plan] at h
    split at h
    · split at h
      · cases h
        exact Or.inr fun _ => rfl
      · cases h
    · cases h
  | _ =>
    -- no other input has a section
    simp only [NodeProcess.plan] at h
    grind

/-- A process with its directory. -/
structure FileProcess where
  process : NodeProcess
  dir : Files

/-- What the file system does during a step: how it serves the storage calls, and how the process is lost if it
is. -/
structure Storm where
  turns : List FileTurn := []
  loss : Loss := .kill

namespace FileProcess

/-- Start again from a directory. `NewNode` fails if `Load` does, and then there is no process. -/
def reboot (p : FileProcess) (dir : Files) : Option FileProcess :=
  dir.load.map fun ps => { process := .boot p.process.node.id p.process.node.peers ps, dir := dir }

/-- Start again after a loss, by a panic (`true`) or from outside. -/
def lose (p : FileProcess) (loss : Loss) (dir : Files) (panicked : Bool) : Option (FileProcess × Effects) :=
  (p.reboot (dir.after loss)).map fun p' => (p', { lost := some panicked })

/-- Carry out a plan, with storage calls as this input makes them. -/
def carryOut (p : FileProcess) (storm : Storm) (input : Input) : NodeProcess.Plan → Option (FileProcess × Effects)
  | .immediate (after, effects) => some ({ process := after, dir := p.dir }, effects)
  | .critical program next =>
    match program.execOn (serveFiles input.emptyLog) storm.turns p.dir with
    | (.returned a, dir) => some ({ process := (next a).1, dir := dir }, (next a).2)
    | (.faulted, dir) => p.lose storm.loss dir true
    | (.crashed, dir) => p.lose storm.loss dir false

/-- One step of a process. -/
def step (p : FileProcess) (fresh : ℕ) (storm : Storm) : Input → Option (FileProcess × Effects)
  | .restart => (p.reboot (p.dir.after storm.loss)).map fun p' => (p', {})
  | input => (p.process.plan fresh input).bind (p.carryOut storm input)

/-- The file system admits every storage call that a section comes to, and if the process is killed there, then not
between a rename and the sync of the directory. -/
def admitsSection {A : Type} (p : FileProcess) (storm : Storm) (input : Input) (program : Section A) : Bool :=
  program.admits (serveFiles input.emptyLog) (FileTurn.admitted input.emptyLog) storm.turns p.dir &&
    match program.execOn (serveFiles input.emptyLog) storm.turns p.dir with
    | (.crashed, dir) => storm.loss.settles dir
    | _ => true

/-- The same for the section of a step. -/
def admits (p : FileProcess) (fresh : ℕ) (storm : Storm) (input : Input) : Bool :=
  match p.process.plan fresh input with
  | some (.critical program _) => p.admitsSection storm input program
  | _ => true

end FileProcess

section Processes

variable {p p' : FileProcess} {fresh : ℕ} {storm : Storm} {input : Input} {effects : Effects} {ps : PersistentState}

/-- The server over abstract storage for a process over files. -/
def FileProcess.server (p : FileProcess) (ps : PersistentState) : Server where
  toNodeProcess := p.process
  disk := ps

/-- How a step of a process over files is one over abstract storage: a step with the same calls and the same reply, or
one whose end the process has not lived to see. -/
inductive FileProcess.Follows (p : FileProcess) (fresh : ℕ) (input : Input) (ps : PersistentState)
    (p' : FileProcess) (effects : Effects) : Prop
  | same {fates : List Fate} {ps' : PersistentState} {effects' : Effects}
      (hstep : (p.server ps).step fresh fates input = some (p'.server ps', effects'))
      (hholds : p'.dir.Holds ps') (hcalls : effects'.calls = effects.calls) (hreply : effects'.reply = effects.reply)
  | cut {fates : List Fate} {after : Server} {effects' : Effects}
      (hstep : (p.server ps).step fresh fates input = some (after, effects'))
      (hholds : p'.dir.Holds after.disk) (hcalls : effects'.calls = [])
      (hlost : effects.calls = [] ∧ effects.reply = none)
      (hboot : p'.process = .boot p.process.node.id p.process.node.peers after.disk)

/-- A start finds what the directory holds. -/
theorem FileProcess.reboot_eq {dir : Files} (h : dir.Holds ps) (p : FileProcess) :
    p.reboot dir = some { process := .boot p.process.node.id p.process.node.peers ps, dir := dir } := by
  rw [FileProcess.reboot, h.load]
  rfl

/-- A lost process is started again from what the directory holds. -/
theorem FileProcess.eq_of_lose {dir : Files} {loss : Loss} {panicked : Bool} (hholds : (dir.after loss).Holds ps)
    (h : p.lose loss dir panicked = some (p', effects)) :
    p' = { process := .boot p.process.node.id p.process.node.peers ps, dir := dir.after loss } ∧
      effects = { lost := some panicked } := by
  rw [FileProcess.lose, FileProcess.reboot_eq hholds] at h
  cases h
  exact ⟨rfl, rfl⟩

/-- A step over abstract storage goes by the same plan. -/
theorem FileProcess.server_step_of_plan {plan : NodeProcess.Plan} {fates : List Fate}
    (hplan : p.process.plan fresh input = some plan) :
    (p.server ps).step fresh fates input = some ((p.server ps).carryOut fates plan) := by
  have hstep : (p.server ps).step fresh fates input =
      (p.process.plan fresh input).map ((p.server ps).carryOut fates) := by
    cases input with
    | restart => cases hplan
    | _ => rfl
  rw [hstep, hplan, Option.map_some]

/-- A step with a section over abstract storage, by how the section ends. -/
theorem FileProcess.server_step {A : Type} {program : Section A} {next : A → NodeProcess × Effects}
    (hplan : p.process.plan fresh input = some (.critical program next)) {fates : List Fate} {outcome : Outcome A}
    {disk : PersistentState} (hends : program.run fates ps = (outcome, disk)) :
    (p.server ps).step fresh fates input = some (match outcome with
      | .returned a => Server.onDisk disk (next a)
      | .faulted => ((p.server ps).reboot disk, { lost := some true })
      | .crashed => ((p.server ps).reboot disk, { lost := some false })) := by
  have hends' : program.run fates (p.server ps).disk = (outcome, disk) := hends
  rw [FileProcess.server_step_of_plan hplan, Server.carryOut, Server.perform, hends']
  cases outcome <;> rfl

/-- A section over files is one over abstract storage. -/
theorem FileProcess.follows_of_section {A : Type} {program : Section A} {next : A → NodeProcess × Effects}
    (hplan : p.process.plan fresh input = some (.critical program next)) (hholds : p.dir.Holds ps)
    (hadmits : p.admitsSection storm input program = true)
    (hstep : p.carryOut storm input (.critical program next) = some (p', effects)) :
    p.Follows fresh input ps p' effects := by
  have hempty : input.emptyLog.elements = [] := by
    cases input <;> rfl
  rw [FileProcess.admitsSection, Bool.and_eq_true] at hadmits
  obtain ⟨hadmits, hsettles⟩ := hadmits
  rw [FileProcess.carryOut] at hstep
  cases hrun : program.execOn (serveFiles input.emptyLog) storm.turns p.dir with
  | mk outcome dir =>
  rw [hrun] at hstep hsettles
  have hsound := (implements_serveFiles hempty).execOn hholds hadmits hrun
  cases outcome with
  | returned a =>
    obtain ⟨fates, disk, hexec, hend⟩ := hsound.1 nofun
    cases hstep
    exact .same (FileProcess.server_step hplan hexec) hend rfl rfl
  | faulted =>
    obtain ⟨fates, disk, hexec, hend⟩ := hsound.1 nofun
    have hfound := hend.after storm.loss
    obtain ⟨rfl, rfl⟩ := FileProcess.eq_of_lose hfound hstep
    exact .same (FileProcess.server_step hplan hexec) hfound rfl rfl
  | crashed =>
    obtain ⟨fates, ended, disk, hexec, hfound⟩ := hsound.2 rfl _ ⟨storm.loss, hsettles, rfl⟩
    obtain ⟨rfl, rfl⟩ := FileProcess.eq_of_lose hfound hstep
    have habove := FileProcess.server_step hplan hexec
    cases ended with
    | returned a =>
      -- the call that was cut off was the last, and above the section has returned
      refine .cut habove hfound ?_ ⟨rfl, rfl⟩ rfl
      rcases NodeProcess.quiet_or_silent hplan with hquiet | hsilent
      · exact absurd (congrArg Prod.fst hrun) (StorageProgram.Quiet.not_crashed hquiet storm.turns p.dir)
      · exact hsilent a
    | faulted => exact .same habove hfound rfl rfl
    | crashed => exact .same habove hfound rfl rfl

/-- **A step over files is a step over abstract storage**, with fates that the file system decides. -/
theorem FileProcess.follows_of_step (hholds : p.dir.Holds ps) (hadmits : p.admits fresh storm input = true)
    (hstep : p.step fresh storm input = some (p', effects)) : p.Follows fresh input ps p' effects := by
  by_cases hinput : input = .restart
  · subst hinput
    have hfound := hholds.after storm.loss
    rw [FileProcess.step, FileProcess.reboot_eq hfound] at hstep
    cases hstep
    have hserver : (p.server ps).step fresh [] .restart = some ((p.server ps).reboot ps, {}) := rfl
    exact .same hserver hfound rfl rfl
  · have hgoes : p.step fresh storm input = (p.process.plan fresh input).bind (p.carryOut storm input) := by
      cases input with
      | restart => exact absurd rfl hinput
      | _ => rfl
    rw [hgoes] at hstep
    obtain ⟨plan, hplan, hstep⟩ := Option.bind_eq_some_iff.mp hstep
    cases plan with
    | immediate result =>
      cases hstep
      have hserver : (p.server ps).step fresh [] input = some (Server.onDisk ps result) :=
        FileProcess.server_step_of_plan hplan
      exact .same hserver hholds rfl rfl
    | critical program next =>
      rw [FileProcess.admits, hplan] at hadmits
      exact FileProcess.follows_of_section hplan hholds hadmits hstep

end Processes

/-- All processes with their directories, and all calls and responses so far. -/
structure FileCluster where
  processes : String → FileProcess
  calls : List Call
  replies : List (ℕ × Reply)

/-- What happens next in a file-backed cluster. -/
inductive FileAction
  | act (id : String) (input : Input) (storm : Storm)
  | deliver (handle : ℕ) (storm : Storm)
  | answer (handle : ℕ) (reply : Reply) (storm : Storm)

/-- What the file system does meanwhile. -/
def FileAction.storm : FileAction → Storm
  | act _ _ storm | deliver _ storm | answer _ _ storm => storm

/-- The process that an action moves, and its input. -/
def FileAction.target (w : FileCluster) : FileAction → Option (String × Input)
  | act id input _ => some (id, input)
  | deliver handle _ => w.calls[handle]?.map fun call => (call.callee, .receive call.request)
  | answer handle reply _ => w.calls[handle]?.map fun call => (call.caller, reply.input handle)

namespace FileCluster

/-- Record a step of one process. -/
def record (w : FileCluster) (id : String) (served : Option ℕ) (after : FileProcess) (effects : Effects) :
    FileCluster where
  processes := Function.update w.processes id after
  calls := w.calls ++ effects.calls.map fun (peer, req) => { caller := id, callee := peer, request := req }
  replies := w.replies ++ Cluster.newReplies served effects

/-- Let one process take a step, if it can. -/
def advance (w : FileCluster) (id : String) (input : Input) (served : Option ℕ) (storm : Storm) : Option FileCluster :=
  ((w.processes id).step w.calls.length storm input).map fun (after, effects) => w.record id served after effects

/-- One step of a file-backed cluster with the given members. -/
def step (members : List String) (w : FileCluster) : FileAction → Option FileCluster
  | .act id input storm =>
    if id ∈ members ∧ input.isLocal then w.advance id input none storm else none
  | .deliver handle storm => do
    let call ← w.calls[handle]?
    w.advance call.callee (.receive call.request) (some handle) storm
  | .answer handle reply storm => do
    let call ← w.calls[handle]?
    if w.replies.contains (handle, reply) then w.advance call.caller (reply.input handle) none storm else none

/-- Every member has just been started over an empty directory. -/
def first (members : List String) : FileCluster where
  processes id := { process := .boot id members .empty, dir := .fresh }
  calls := []
  replies := []

end FileCluster

/-- The file system admits every storage call of the action: directories can be opened and synced, no null entries
are written at base zero, and no process is killed between a rename and the sync of the directory unless its machine
loses power. -/
def Serviced (w : FileCluster) (a : FileAction) : Prop :=
  ∀ t ∈ a.target w, (w.processes t.1).admits w.calls.length a.storm t.2 = true

instance (w : FileCluster) (a : FileAction) : Decidable (Serviced w a) :=
  inferInstanceAs (Decidable (∀ t ∈ a.target w, _))

/-- The states that runs of a file-backed cluster reach. -/
abbrev FileReachable (m : Membership) : FileCluster → Prop :=
  Reachable (· = FileCluster.first m.ids) (LabelledStep Serviced fun w a => w.step m.ids a)

/-- A cluster over abstract storage in which every server is where the process is and has on disk what the directory
holds. Responses that a process did not live to give are there as well. -/
structure FileCluster.Mirrors (w : FileCluster) (c : Cluster) : Prop where
  servers : ∀ id, ∃ ps, (w.processes id).dir.Holds ps ∧ c.servers id = (w.processes id).server ps
  calls : c.calls = w.calls
  replies : ∀ r ∈ w.replies, r ∈ c.replies

section Clusters

variable {m : Membership} {w w' : FileCluster} {c : Cluster} {a : FileAction}

/-- A step of a file-backed cluster is a step of one process, and a cluster that mirrors it can let its server take
a step with the same input. -/
theorem FileCluster.step_cases {members : List String} (h : w.step members a = some w') (hmirrors : w.Mirrors c) :
    ∃ id input served p' effects, a.target w = some (id, input) ∧
      (w.processes id).step w.calls.length a.storm input = some (p', effects) ∧ w' = w.record id served p' effects ∧
      ∀ fates, ∃ act, Cluster.Source members c act id input served ∧
        c.step members act = c.advance id input served fates := by
  have hadvance : ∀ {id input served storm}, w.advance id input served storm = some w' →
      ∃ p' effects, (w.processes id).step w.calls.length storm input = some (p', effects) ∧
        w' = w.record id served p' effects := by
    intro id input served storm hadv
    obtain ⟨⟨p', effects⟩, hstep, hrecord⟩ := Option.map_eq_some_iff.mp hadv
    exact ⟨p', effects, hstep, hrecord.symm⟩
  cases a with
  | act id input storm =>
    simp only [FileCluster.step] at h
    split at h
    · rename_i hmember
      obtain ⟨p', effects, hstep, hrecord⟩ := hadvance h
      refine ⟨id, input, none, p', effects, rfl, hstep, hrecord, fun fates => ?_⟩
      exact ⟨.act id input fates, .act hmember.1 hmember.2, if_pos hmember⟩
    · cases h
  | deliver handle storm =>
    obtain ⟨call, hcall, hadv⟩ := Option.bind_eq_some_iff.mp h
    obtain ⟨p', effects, hstep, hrecord⟩ := hadvance hadv
    have hcall' : c.calls[handle]? = some call := by
      rw [hmirrors.calls]
      exact hcall
    refine ⟨_, _, _, p', effects, ?_, hstep, hrecord, fun fates => ⟨.deliver handle fates, .deliver hcall', ?_⟩⟩
    · rw [FileAction.target, hcall]
      rfl
    · rw [Cluster.step, hcall']
      rfl
  | answer handle reply storm =>
    obtain ⟨call, hcall, hrest⟩ := Option.bind_eq_some_iff.mp h
    split at hrest
    · rename_i hcontains
      have hreply : (handle, reply) ∈ w.replies := List.contains_iff_mem.mp hcontains
      obtain ⟨p', effects, hstep, hrecord⟩ := hadvance hrest
      have hcall' : c.calls[handle]? = some call := by
        rw [hmirrors.calls]
        exact hcall
      have hreply' := hmirrors.replies _ hreply
      refine ⟨_, _, _, p', effects, ?_, hstep, hrecord,
        fun fates => ⟨.answer handle reply fates, .answer hcall' hreply', ?_⟩⟩
      · rw [FileAction.target, hcall]
        rfl
      · rw [Cluster.step, hcall']
        exact if_pos hreply'
    · cases hrest

/-- What is mirrored after a step of one process, if its server has got there as well. -/
theorem FileCluster.Mirrors.record {id : String} {served : Option ℕ} {p' : FileProcess} {effects : Effects}
    {c' : Cluster} {ps : PersistentState} (h : w.Mirrors c) (hholds : p'.dir.Holds ps)
    (hservers : c'.servers = Function.update c.servers id (p'.server ps))
    (hcalls : c'.calls = c.calls ++
      effects.calls.map fun (peer, req) => { caller := id, callee := peer, request := req })
    (hold : ∀ r ∈ c.replies, r ∈ c'.replies) (hnew : ∀ r ∈ Cluster.newReplies served effects, r ∈ c'.replies) :
    (w.record id served p' effects).Mirrors c' where
  servers other := by
    rw [hservers]
    by_cases hother : other = id
    · subst hother
      refine ⟨ps, ?_, ?_⟩ <;> simp only [FileCluster.record, Function.update_self]
      exact hholds
    · simp only [FileCluster.record, Function.update_of_ne hother]
      exact h.servers other
  calls := by
    rw [hcalls, h.calls]
    rfl
  replies r hr := by
    rcases List.mem_append.mp hr with hr | hr
    · exact hold r (h.replies r hr)
    · exact hnew r hr

/-- **Every step is mirrored**, by one step or, where a process is cut off behind its last storage call, by two. -/
theorem FileCluster.Mirrors.step (run : ClusterReachable m (fun _ _ => True) c) (h : w.Mirrors c)
    (hserviced : Serviced w a) (hstep : w.step m.ids a = some w') :
    ∃ c', ClusterReachable m (fun _ _ => True) c' ∧ w'.Mirrors c' := by
  obtain ⟨id, input, served, p', effects, htarget, hprocess, rfl, habove⟩ := FileCluster.step_cases hstep h
  obtain ⟨ps, hholds, hserver⟩ := h.servers id
  rw [← h.calls] at hprocess
  have hadmits := hserviced _ htarget
  rw [← h.calls] at hadmits
  cases FileProcess.follows_of_step hholds hadmits hprocess with
  | @same fates ps' effects' hstep' hholds' hcalls hreply =>
    obtain ⟨act, _, hact⟩ := habove fates
    have hadvance : c.advance id input served fates =
        some (c.record id input served (p'.server ps') effects') := by
      rw [Cluster.advance, hserver, hstep']
      rfl
    have hnew : Cluster.newReplies served effects' = Cluster.newReplies served effects := by
      unfold Cluster.newReplies
      rw [hreply]
    refine ⟨_, .next run ⟨act, trivial, hact.trans hadvance⟩, h.record hholds' rfl ?_ ?_ ?_⟩
    · rw [Cluster.record, hcalls]
    · exact fun r hr => List.mem_append_left _ hr
    · exact fun r hr => List.mem_append_right _ (hnew ▸ hr)
  | @cut fates after effects' hstep' hholds' hcalls hlost hboot =>
    obtain ⟨act, hsource, hact⟩ := habove fates
    have hadvance : c.advance id input served fates = some (c.record id input served after effects') := by
      rw [Cluster.advance, hserver, hstep']
      rfl
    have run₁ : ClusterReachable m (fun _ _ => True) (c.record id input served after effects') :=
      .next run ⟨act, trivial, hact.trans hadvance⟩
    have hid := ((wired_of_reachable run).source hsource).1
    -- the server that has lived on is restarted, and keeps its id and its peers
    have hplaced := ((wired_of_reachable run).servers id hid).placed
    have hplaced₁ := ((wired_of_reachable run₁).servers id hid).placed
    rw [hserver] at hplaced
    rw [Cluster.record_servers_self] at hplaced₁
    have hself : (w.processes id).process.node.id = id := hplaced.self
    have hpeers : (w.processes id).process.node.peers = normalizePeers id m.ids := hplaced.peers
    have hreboot : after.reboot after.disk = p'.server after.disk := by
      rw [FileProcess.server, hboot, Server.reboot, hplaced₁.self, hplaced₁.peers, hself, hpeers]
      rfl
    have hrestart : (c.record id input served after effects').step m.ids (.act id .restart []) =
        some ((c.record id input served after effects').record id .restart none (p'.server after.disk) {}) := by
      rw [Cluster.step, if_pos ⟨hid, rfl⟩, Cluster.advance, Cluster.record_servers_self, ← hreboot]
      rfl
    refine ⟨_, .next run₁ ⟨_, trivial, hrestart⟩, h.record hholds' ?_ ?_ ?_ ?_⟩
    · exact Function.update_idem ..
    · simp only [Cluster.record, hcalls, hlost.1, List.map_nil, List.append_nil]
    · exact fun r hr => List.mem_append_left _ (List.mem_append_left _ hr)
    · intro r hr
      unfold Cluster.newReplies at hr
      rw [hlost.2] at hr
      cases served <;> cases hr

/-- Empty directories hold empty states. -/
theorem FileCluster.mirrors_first (members : List String) :
    (FileCluster.first members).Mirrors (Cluster.first members) where
  servers _ := ⟨.empty, ⟨rfl, fun _ => rfl, fun _ _ hcontent => by cases hcontent⟩, rfl⟩
  calls := rfl
  replies _ hr := hr

/-- **A cluster over files is a cluster.** Whatever else fails in the file systems, whenever power is lost and whenever
a process is killed other than between a rename and the sync behind it, every state that a file-backed cluster reaches
is one that the cluster over abstract storage reaches with some fates of its storage calls: the same nodes, on disks
that hold what `Load` would return, and the same calls. What `Load` returns is there for good, whenever the machine
loses power next. -/
theorem file_backed_runs_are_cluster_runs (run : FileReachable m w) :
    ∃ c, ClusterReachable m (fun _ _ => True) c ∧ c.calls = w.calls ∧ (∀ r ∈ w.replies, r ∈ c.replies) ∧
      ∀ id, ∃ ps, (w.processes id).dir.load = some ps ∧ c.servers id = (w.processes id).server ps ∧
        ∀ outage, ((w.processes id).dir.recovered outage).load = some ps := by
  obtain ⟨c, hreachable, hmirrors⟩ : ∃ c, ClusterReachable m (fun _ _ => True) c ∧ w.Mirrors c := by
    refine run.invariant (P := fun w => ∃ c, ClusterReachable m (fun _ _ => True) c ∧ w.Mirrors c) ?_ ?_
    · intro w hfirst
      cases hfirst
      exact ⟨_, .first rfl, FileCluster.mirrors_first m.ids⟩
    · intro w w' _ ⟨c, hreachable, hmirrors⟩ ⟨a, hserviced, hstep⟩
      exact hmirrors.step hreachable hserviced hstep
  refine ⟨c, hreachable, hmirrors.calls, hmirrors.replies, fun id => ?_⟩
  obtain ⟨ps, hholds, hserver⟩ := hmirrors.servers id
  exact ⟨ps, hholds.load, hserver, fun outage => (hholds.recovered outage).load⟩

end Clusters

/-- The power fails when `a` has renamed its hard state for the first term and not yet synced the directory. It comes
back in that term, in which it has voted for itself. -/
theorem file_backed_runs_are_cluster_runs_after_outage :
    ∃ w, FileReachable threeNodes w ∧ (w.processes "a").process.node.votedFor = "a" ∧
      (w.processes "a").process.node.role = .follower ∧
      ∃ c, ClusterReachable threeNodes (fun _ _ => True) c ∧ c.calls = w.calls ∧ (∀ r ∈ w.replies, r ∈ c.replies) ∧
        ∀ id, ∃ ps, (w.processes id).dir.load = some ps ∧ c.servers id = (w.processes id).server ps ∧
          ∀ outage, ((w.processes id).dir.recovered outage).load = some ps := by
  have hrun : (execute Serviced (fun w a => FileCluster.step threeNodes.ids w a) (FileCluster.first threeNodes.ids)
      [.act "a" .dispatch {}, .act "a" .electionTimeout {}, .act "a" .dispatch {},
        .act "a" .startElection
          { turns := [{ fates := List.replicate 6 .succeeds ++ [.crashes] }], loss := .outage {} }]).map
      (fun w => ((w.processes "a").process.node.votedFor, (w.processes "a").process.node.role)) =
      some ("a", .follower) := by
    decide +kernel
  obtain ⟨w, run, hfacts⟩ : ∃ w, FileReachable threeNodes w ∧
      ((w.processes "a").process.node.votedFor, (w.processes "a").process.node.role) = ("a", Role.follower) :=
    exists_reachable_of_execute rfl hrun
  obtain ⟨hvote, hrole⟩ := Prod.mk.inj hfacts
  exact ⟨w, run, hvote, hrole, file_backed_runs_are_cluster_runs run⟩

/-- The kill that is left out: `a` is killed when it has renamed its hard state for the first term and not yet synced
the directory, and its machine stays up. It comes back in that term, and a loss of power then takes the term and the
vote back. -/
theorem killed_before_sync_loses_vote :
    ∃ w, Reachable (· = FileCluster.first threeNodes.ids)
        (LabelledStep (fun _ _ => True) fun w a => FileCluster.step threeNodes.ids w a) w ∧
      (w.processes "a").process.node.votedFor = "a" ∧
      ((w.processes "a").dir.recovered { entry := fun _ => 1 }).load = some .empty := by
  have hrun : (execute (fun _ _ => True) (fun w a => FileCluster.step threeNodes.ids w a)
      (FileCluster.first threeNodes.ids)
      [.act "a" .dispatch {}, .act "a" .electionTimeout {}, .act "a" .dispatch {},
        .act "a" .startElection
          { turns := [{ fates := List.replicate 6 .succeeds ++ [.crashes] }], loss := .kill }]).map
      (fun w => ((w.processes "a").process.node.votedFor,
        ((w.processes "a").dir.recovered { entry := fun _ => 1 }).load)) = some ("a", some .empty) := by
    decide +kernel
  obtain ⟨w, run, hfacts⟩ : ∃ w, Reachable (· = FileCluster.first threeNodes.ids)
      (LabelledStep (fun _ _ => True) fun w a => FileCluster.step threeNodes.ids w a) w ∧
      ((w.processes "a").process.node.votedFor,
        ((w.processes "a").dir.recovered { entry := fun _ => 1 }).load) = ("a", some .empty) :=
    exists_reachable_of_execute rfl hrun
  obtain ⟨hvote, hload⟩ := Prod.mk.inj hfacts
  exact ⟨w, run, hvote, hload⟩

end ConsensusLab.Raft
