import ConsensusLab.Service.System
import ConsensusLab.Raft.ApplyOrder
import ConsensusLab.Raft.ReplicationProgress

/-!
# The stores of a cluster are replays of its committed log

What a service has applied, what is on its way to it and what the snapshots carry all
come from one sequence of decided commands. The state of a service is the replay of as
many of them as it has applied; the messages in its channel continue from there, and the
apply loop of its node continues from the last of these. Restored snapshots and local
compaction fit in because the data of a snapshot restores the replay up to its index.
-/

namespace ConsensusLab.Service

open Foundation ConsensusLab.KV
open Raft (Action ApplyMsg Bytes Cluster Decided Effects Evolves Input LogEntry LogRefines Membership Node
  RaftLog Request Server Snapshot Transition)

variable {m : Membership} {codec : Codec} {a a' : RaftLog} {index : Int} {store store' : Store}

/-- The store is what the decided commands up to an index leave behind. -/
def Replays (codec : Codec) (a : RaftLog) (index : Int) (store : Store) : Prop :=
  ∃ commands : List Bytes, index = commands.length ∧
    (∀ (j : ℕ) cmd, commands[j]? = some cmd → ∃ e, Decided a (j + 1) e ∧ e.command = cmd) ∧
    replay codec commands = some store

/-- The data of a snapshot restores what the decided commands up to an index leave behind. -/
def Restores (codec : Codec) (a : RaftLog) (data : Bytes) (index : Int) : Prop :=
  ∃ store, Replays codec a index store ∧ Store.restoreSnapshot codec data = some store

/-- Decisions are final, so replays stay replays. -/
theorem Replays.mono (h : Replays codec a index store) (hinv : LogInvariant m.quorums a)
    (hgrows : a.Grows a') : Replays codec a' index store := by
  obtain ⟨commands, hlength, hdecided, hreplay⟩ := h
  refine ⟨commands, hlength, fun j cmd hcmd => ?_, hreplay⟩
  obtain ⟨e, he, hcommand⟩ := hdecided j cmd hcmd
  exact ⟨e, he.mono hinv hgrows, hcommand⟩

/-- A new store has replayed nothing. -/
theorem Replays.new (codec : Codec) (a : RaftLog) : Replays codec a 0 newStore :=
  ⟨[], rfl, fun _ _ => nofun, rfl⟩

/-- Replays reach a length. -/
theorem Replays.nonneg (h : Replays codec a index store) : 0 ≤ index := by
  obtain ⟨commands, rfl, _⟩ := h
  exact Int.natCast_nonneg _

/-- Applying the next decided command. -/
theorem Replays.apply (h : Replays codec a index store) {e : LogEntry} (hdecided : Decided a (index + 1) e)
    (happly : store.apply codec e.command = some store') : Replays codec a (index + 1) store' := by
  obtain ⟨commands, rfl, hcommands, hreplay⟩ := h
  refine ⟨commands ++ [e.command], by simp, fun j cmd hcmd => ?_, ?_⟩
  · rcases Nat.lt_trichotomy j commands.length with hlt | rfl | hgt
    · rw [List.getElem?_append_left hlt] at hcmd
      exact hcommands j cmd hcmd
    · rw [List.getElem?_concat_length] at hcmd
      exact ⟨e, hdecided, Option.some.inj hcmd⟩
    · rw [List.getElem?_eq_none (by simp; omega)] at hcmd
      cases hcmd
  · rw [replay_concat, hreplay, Option.bind_some, happly]

/-- Restorable data stays restorable. -/
theorem Restores.mono {data : Bytes} (h : Restores codec a data index) (hinv : LogInvariant m.quorums a)
    (hgrows : a.Grows a') : Restores codec a' data index := by
  obtain ⟨store, hreplays, hrestore⟩ := h
  exact ⟨store, hreplays.mono hinv hgrows, hrestore⟩

/-- A snapshot of a replay can be restored. -/
theorem Replays.snapshot (h : Replays codec a index store) : Restores codec a (store.snapshot codec) index :=
  ⟨store, h, restoreSnapshot_snapshot codec store⟩

/-- A message says what is decided. -/
def MessageSound (codec : Codec) (a : RaftLog) : ApplyMsg → Prop
  | .command cmd index => ∃ e, Decided a index e ∧ e.command = cmd
  | .snapshot data index => Restores codec a data index

/-- What a message says stays decided. -/
theorem MessageSound.mono {msg : ApplyMsg} (h : MessageSound codec a msg) (hinv : LogInvariant m.quorums a)
    (hgrows : a.Grows a') : MessageSound codec a' msg := by
  cases msg with
  | command cmd index =>
    obtain ⟨e, he, hcmd⟩ := h
    exact ⟨e, he.mono hinv hgrows, hcmd⟩
  | snapshot data index => exact Restores.mono h hinv hgrows

/-- Messages that follow each other, from an index on. -/
def Streams (codec : Codec) (a : RaftLog) (reached : Int) : List ApplyMsg → Prop
  | [] => True
  | msg :: rest => msg.Continues reached ∧ MessageSound codec a msg ∧ Streams codec a msg.index rest

/-- The index that messages lead to. -/
def streamEnd (reached : Int) : List ApplyMsg → Int
  | [] => reached
  | msg :: rest => streamEnd msg.index rest

/-- Messages in a channel stay sound. -/
theorem Streams.mono {channel : List ApplyMsg} {reached : Int} (h : Streams codec a reached channel)
    (hinv : LogInvariant m.quorums a) (hgrows : a.Grows a') : Streams codec a' reached channel := by
  induction channel generalizing reached with
  | nil => trivial
  | cons msg rest ih =>
    obtain ⟨hcontinues, hsound, hrest⟩ := h
    exact ⟨hcontinues, hsound.mono hinv hgrows, ih hrest⟩

/-- One more message. -/
theorem Streams.concat {channel : List ApplyMsg} {reached : Int} {msg : ApplyMsg}
    (h : Streams codec a reached channel) (hcontinues : msg.Continues (streamEnd reached channel))
    (hsound : MessageSound codec a msg) : Streams codec a reached (channel ++ [msg]) := by
  induction channel generalizing reached with
  | nil => exact ⟨hcontinues, hsound, trivial⟩
  | cons first rest ih =>
    obtain ⟨hfirst, hfirstSound, hrest⟩ := h
    exact ⟨hfirst, hfirstSound, ih hrest hcontinues⟩

/-- The last message's index is where messages lead to. -/
theorem streamEnd_concat (reached : Int) (channel : List ApplyMsg) (msg : ApplyMsg) :
    streamEnd reached (channel ++ [msg]) = msg.index := by
  induction channel generalizing reached with
  | nil => rfl
  | cons first rest ih => exact ih first.index

/-- A channel continues from what its service has applied to where the apply loop of the node stands. -/
structure ChannelSound (codec : Codec) (a : RaftLog) (sv : Server) (reached : Int)
    (channel : List ApplyMsg) : Prop where
  stream : Streams codec a reached channel
  delivers : sv.node.Delivers (streamEnd reached channel) sv.applier
  within : ∀ msg ∈ channel, msg.Within sv.node

/-- The handler is on its way to a snapshot. -/
def Handler.snapshotDue : Handler → Bool
  | notifying snapshotDue => snapshotDue
  | snapshotting => true
  | receiving | stopped => false

/-- A process whose store is a replay, whose snapshots can be restored, and whose messages continue as
long as its service handles them. -/
structure ProcessSound (codec : Codec) (a : RaftLog) (sv : Server) (s : KV) (channel : List ApplyMsg) :
    Prop where
  store : Replays codec a s.lastAppliedIndex s.store
  committed : s.lastAppliedIndex ≤ sv.node.commitIndex
  due : s.handler.snapshotDue = true → s.lastAppliedIndex ≤ sv.node.lastApplied
  snapshots : ∀ snap ∈ sv.snapshots, Restores codec a snap.data snap.lastIncludedIndex
  channel : s.handler ≠ .stopped → ChannelSound codec a sv s.lastAppliedIndex channel

variable {id : String} {sv sv' : Server} {s s' : KV} {channel : List ApplyMsg}

/-- A process that does nothing stays sound while others act. -/
theorem ProcessSound.mono (h : ProcessSound codec a sv s channel) (hinv : LogInvariant m.quorums a)
    (hgrows : a.Grows a') : ProcessSound codec a' sv s channel where
  store := h.store.mono hinv hgrows
  committed := h.committed
  due := h.due
  snapshots snap hsnap := (h.snapshots snap hsnap).mono hinv hgrows
  channel hrunning :=
    have hc := h.channel hrunning
    ⟨hc.stream.mono hinv hgrows, hc.delivers, hc.within⟩

/-- What a node has reached stays within it. -/
theorem within_of_evolves {n n' : Node} {msg : ApplyMsg} (h : msg.Within n) (hevolves : Evolves n n') :
    msg.Within n' := by
  cases msg with
  | command => exact Int.le_trans h hevolves.lastApplied
  | snapshot => exact Int.le_trans h hevolves.snapshotIndex

/-- A step of the node that does not start the process again: the service stays where it is, and what is
delivered continues the channel. -/
theorem ProcessSound.move (h : ProcessSound codec a sv s channel) (hinv : LogInvariant m.quorums a)
    (hgrows : a.Grows a') {input : Input} {effects : Effects} (hmove : sv.LogMove input (sv', effects))
    (hinput : input ≠ .restart) (hkept : effects.lost = none) (hheld : sv.SnapshotsHeld)
    (hbrings : ∀ snap, input.Brings snap → Restores codec a snap.data snap.lastIncludedIndex)
    (hevolves : Evolves sv.node sv'.node)
    (hdelivered : ∀ cmd i, effects.delivered = some (.command cmd i) → ∃ e, Decided a' i e ∧ e.command = cmd) :
    ProcessSound codec a' sv' s (channel ++ effects.delivered.toList) where
  store := h.store.mono hinv hgrows
  committed := Int.le_trans h.committed hevolves.commitIndex
  due hdue := Int.le_trans (h.due hdue) hevolves.lastApplied
  snapshots snap hsnap := by
    rcases hmove.snapshots hsnap with hold | hnew
    · exact (h.snapshots snap hold).mono hinv hgrows
    · exact (hbrings snap hnew).mono hinv hgrows
  channel hrunning := by
    have hc := h.channel hrunning
    obtain ⟨hnext, hdelivers⟩ := hmove.delivers hinput hkept hc.delivers hheld
    have hstream := hc.stream.mono hinv hgrows
    have hwithin : ∀ msg ∈ channel, msg.Within sv'.node :=
      fun msg hmsg => within_of_evolves (hc.within msg hmsg) hevolves
    cases hmsg : effects.delivered with
    | none =>
      rw [Effects.reach, hmsg] at hdelivers
      rw [Option.toList_none, List.append_nil]
      exact ⟨hstream, hdelivers, hwithin⟩
    | some msg =>
      obtain ⟨hcontinues, hnew⟩ := hnext msg hmsg
      rw [Effects.reach, hmsg] at hdelivers
      rw [Option.toList_some]
      refine ⟨hstream.concat hcontinues ?_, ?_, fun msg' hmsg' => ?_⟩
      · cases msg with
        | command cmd i => exact hdelivered cmd i hmsg
        | snapshot data i =>
          obtain ⟨snap, hsnap, rfl, rfl⟩ := hmove.delivered_snapshot hmsg
          exact (h.snapshots snap hsnap).mono hinv hgrows
      · rw [streamEnd_concat]
        exact hdelivers
      · rcases List.mem_append.mp hmsg' with hold | hlast
        · exact hwithin msg' hold
        · rw [List.mem_singleton.mp hlast]
          exact hnew

/-- A process that is started again begins with a new store and delivers its snapshot first. -/
theorem ProcessSound.restart (h : ProcessSound codec a sv s channel) (hinv : LogInvariant m.quorums a)
    (hgrows : a.Grows a') {input : Input} {effects : Effects} {disk : Raft.PersistentState}
    (hmove : sv.LogMove input (sv.reboot disk, effects))
    (hbrings : ∀ snap, input.Brings snap → Restores codec a snap.data snap.lastIncludedIndex)
    (hcommit : 0 ≤ (sv.reboot disk).node.commitIndex) (snapshotEvery : ℕ) :
    ProcessSound codec a' (sv.reboot disk) (newKV snapshotEvery) [] := by
  have hsnapshots : ∀ snap ∈ (sv.reboot disk).snapshots, Restores codec a' snap.data snap.lastIncludedIndex := by
    intro snap hsnap
    rcases hmove.snapshots hsnap with hold | hnew
    · exact (h.snapshots snap hold).mono hinv hgrows
    · exact (hbrings snap hnew).mono hinv hgrows
  refine ⟨.new codec a', hcommit, nofun, hsnapshots, fun _ => ⟨trivial, ?_, nofun⟩⟩
  apply Node.delivers_boot
  intro snap hsnap
  obtain ⟨store, hreplays, _⟩ := hsnapshots snap
    (Server.mem_snapshots.mpr (Or.inl (Or.inr (Or.inr hsnap))))
  exact hreplays.nonneg

/-- Handling a message of the channel. -/
theorem ProcessSound.handleApply {msg : ApplyMsg} (h : ProcessSound codec a sv s (msg :: channel))
    (hhandler : s.handler = .receiving) (happlied : sv.node.lastApplied ≤ sv.node.commitIndex)
    (hsnap : sv.node.snapshotIndex ≤ sv.node.commitIndex) :
    ProcessSound codec a sv (s.handleApply codec msg) channel := by
  have hc := h.channel (by rw [hhandler]; decide)
  obtain ⟨hcontinues, hsound, hrest⟩ := hc.stream
  have hchannel : ChannelSound codec a sv msg.index channel :=
    ⟨hrest, hc.delivers, fun msg' hmsg' => hc.within msg' (List.mem_cons_of_mem _ hmsg')⟩
  have hwithin := hc.within msg List.mem_cons_self
  have hstopped : ProcessSound codec a sv { s with handler := .stopped } channel :=
    ⟨h.store, h.committed, (fun hdue => by cases hdue), h.snapshots, fun hrunning => absurd rfl hrunning⟩
  cases msg with
  | command cmd i =>
    obtain ⟨e, hdecided, rfl⟩ := hsound
    obtain rfl : i = s.lastAppliedIndex + 1 := hcontinues
    simp only [KV.handleApply, KV.handleCommand]
    split
    · exact hstopped
    · exact ⟨h.store.apply hdecided ‹_›, Int.le_trans hwithin happlied, fun _ => hwithin, h.snapshots,
        fun _ => hchannel⟩
  | snapshot data i =>
    obtain ⟨store, hreplays, hrestore⟩ := hsound
    simp only [KV.handleApply, KV.handleSnapshot, hrestore]
    exact ⟨hreplays, Int.le_trans hwithin hsnap, (fun hdue => by cases hdue), h.snapshots, fun _ => hchannel⟩

/-- The service has not moved as far as its store and its messages are concerned. -/
structure KV.Keeps (s s' : KV) : Prop where
  store : s'.store = s.store
  lastAppliedIndex : s'.lastAppliedIndex = s.lastAppliedIndex
  due : s'.handler.snapshotDue = true → s.handler.snapshotDue = true
  stopped : s.handler = .stopped → s'.handler = .stopped

/-- Nothing but handling a message moves the service. -/
theorem KV.Move.keeps {e : Event} {result : KV × Option Waiter} (hmove : KV.Move codec s e result)
    (happly : ∀ msg, e ≠ .apply msg) : s.Keeps result.1 := by
  cases hmove with
  | apply msg => exact absurd rfl (happly msg)
  | @notify snapshotDue hhandler =>
    refine ⟨rfl, rfl, ?_, ?_⟩
    · rw [hhandler]
      cases snapshotDue <;> simp [notifyApply, Handler.snapshotDue]
    · rw [hhandler]
      nofun
  | snapshotTaken ok hhandler =>
    refine ⟨?_, ?_, ?_, ?_⟩
    · cases ok <;> rfl
    · cases ok <;> rfl
    · rw [hhandler]
      exact fun _ => rfl
    · rw [hhandler]
      nofun
  | wait | acknowledge | park | forget | wake | expire => exact ⟨rfl, rfl, id, id⟩

/-- A service that has not moved stays sound. -/
theorem ProcessSound.keep (h : ProcessSound codec a sv s channel) (hkeeps : s.Keeps s') :
    ProcessSound codec a sv s' channel where
  store := by
    rw [hkeeps.store, hkeeps.lastAppliedIndex]
    exact h.store
  committed := by
    rw [hkeeps.lastAppliedIndex]
    exact h.committed
  due hdue := by
    rw [hkeeps.lastAppliedIndex]
    exact h.due (hkeeps.due hdue)
  snapshots := h.snapshots
  channel hrunning := by
    rw [hkeeps.lastAppliedIndex]
    exact h.channel fun hstopped => hrunning (hkeeps.stopped hstopped)

end ConsensusLab.Service
