import ConsensusLab.KV.Store
import ConsensusLab.Foundation.Reachability

/-!
# The KV service of a node

The service stands between the clients, the store and the consensus layer: one goroutine
runs `RunApplyLoop`, and every `Put` or `Delete` call whose proposal was accepted waits in
`waitApplied`. All waiting calls share one notification channel of capacity one. A step
is one section of one of these goroutines, or one operation on the channel.
-/

namespace ConsensusLab.Service

open ConsensusLab.KV
open Raft (Bytes ApplyMsg)

/-- The command that `Put` proposes. -/
def putCommand (key value : String) : Command := { type := .put, key := key, value := value }

/-- The command that `Delete` proposes. -/
def deleteCommand (key : String) : Command := { type := .delete, key := key, value := "" }

/-- A `Put` or `Delete` call in `waitApplied`. -/
structure Waiter where
  /-- The call, by a name that no other waiting call has. -/
  call : ℕ
  /-- What the call has proposed. -/
  command : Command
  /-- The index that `StartCommand` returned. -/
  index : Int
  /-- The leader's term at that moment, which the code does not keep. -/
  term : Int
  /-- Waiting for `applyNotifyCh`, and otherwise about to read `lastAppliedIndex`. -/
  parked : Bool
  deriving DecidableEq, Repr

/-- Where the goroutine of `RunApplyLoop` stands. -/
inductive Handler
  /-- Waiting for a message. -/
  | receiving
  /-- In `handleApply` before `notifyApply`, with a snapshot to be taken afterwards or not. -/
  | notifying (snapshotDue : Bool)
  /-- In `snapshot`. -/
  | snapshotting
  /-- `RunApplyLoop` has returned an error. -/
  | stopped
  deriving DecidableEq, Repr

/-- The application service that bridges the KV store and consensus layer. -/
structure KV where
  store : Store
  snapshotEvery : ℕ
  lastAppliedIndex : Int
  appliedSinceSnap : ℕ
  /-- There is a token in `applyNotifyCh`. -/
  applyNotify : Bool
  /-- The keys of `appliedAtByIndex`. -/
  appliedAtByIndex : Finset Int
  /-- The indices of the calls that have been told and have found a timestamp, which they delete in
  another section of `mu`. -/
  forgetting : List Int
  handler : Handler
  waiters : List Waiter

/-- `NewKV`, with `SnapshotEvery` set and a new store. -/
def newKV (snapshotEvery : ℕ) : KV where
  store := newStore
  snapshotEvery := snapshotEvery
  lastAppliedIndex := 0
  appliedSinceSnap := 0
  applyNotify := false
  appliedAtByIndex := ∅
  forgetting := []
  handler := .receiving
  waiters := []

/-- `appliedAtRetention`. -/
def appliedAtRetention : Int := 4096

namespace KV

/-- `handleApply` of a snapshot, up to `notifyApply`. -/
def handleSnapshot (codec : Codec) (s : KV) (data : Bytes) (index : Int) : KV :=
  match Store.restoreSnapshot codec data with
  | none => { s with handler := .stopped }
  | some store =>
    { s with
      store := store
      lastAppliedIndex := index
      appliedSinceSnap := 0
      handler := .notifying false }

/-- The table of timestamps after the command at an index has been applied. -/
def stamp (table : Finset Int) (index : Int) : Finset Int :=
  let cutoff := index - appliedAtRetention
  if cutoff > 0 then (insert index table).erase cutoff else insert index table

/-- `handleApply` of a command, up to `notifyApply`. -/
def handleCommand (codec : Codec) (s : KV) (command : Bytes) (index : Int) : KV :=
  match s.store.apply codec command with
  | none => { s with handler := .stopped }
  | some store =>
    { s with
      store := store
      lastAppliedIndex := index
      appliedSinceSnap := s.appliedSinceSnap + 1
      appliedAtByIndex := stamp s.appliedAtByIndex index
      handler := .notifying (s.snapshotEvery > 0 && s.appliedSinceSnap + 1 ≥ s.snapshotEvery) }

/-- `handleApply`, up to `notifyApply`. The change of the store and that of `lastAppliedIndex` are
sections of different mutexes; nothing but this goroutine reads both. -/
def handleApply (codec : Codec) (s : KV) : ApplyMsg → KV
  | .snapshot data index => s.handleSnapshot codec data index
  | .command command index => s.handleCommand codec command index

/-- `notifyApply`, and on to the snapshot that is due or the next message. -/
def notifyApply (s : KV) (snapshotDue : Bool) : KV :=
  { s with applyNotify := true, handler := if snapshotDue then .snapshotting else .receiving }

/-- The end of `snapshot`, with what `consensus.Snapshot` has returned. -/
def snapshotTaken (s : KV) (ok : Bool) : KV :=
  if ok then { s with appliedSinceSnap := 0, handler := .receiving }
  else { s with handler := .stopped }

/-- Let a call in `waitApplied` wait for the token, or go on. -/
def setParked (s : KV) (w : Waiter) (parked : Bool) : KV :=
  { s with waiters := { w with parked := parked } :: s.waiters.erase w }

/-- Let a call leave `waitApplied`. -/
def leave (s : KV) (w : Waiter) : KV := { s with waiters := s.waiters.erase w }

/-- What a call waits for has been applied. -/
def Satisfied (s : KV) (w : Waiter) : Prop := w.index ≤ s.lastAppliedIndex

instance (s : KV) (w : Waiter) : Decidable (s.Satisfied w) := inferInstanceAs (Decidable (_ ≤ _))

/-- Let a satisfied call go. What is left to it is to delete its timestamp, if it has found one. -/
def acknowledge (s : KV) (w : Waiter) : KV :=
  { s.leave w with
    forgetting := if w.index ∈ s.appliedAtByIndex then w.index :: s.forgetting else s.forgetting }

/-- A call deletes its timestamp. -/
def forget (s : KV) (index : Int) : KV :=
  { s with
    appliedAtByIndex := s.appliedAtByIndex.erase index
    forgetting := s.forgetting.erase index }

end KV

/-- What happens next in a service. -/
inductive Event
  /-- `RunApplyLoop` receives a message and handles it. -/
  | apply (msg : ApplyMsg)
  /-- The handler sends on `applyNotifyCh`. -/
  | notify
  /-- `consensus.Snapshot` returns. -/
  | snapshotTaken (ok : Bool)
  /-- A call whose proposal was accepted enters `waitApplied`. -/
  | wait (call : ℕ) (command : Command) (index term : Int)
  /-- A call in `waitApplied` reads `lastAppliedIndex` and its timestamp. -/
  | check (call : ℕ)
  /-- A call that has been told deletes its timestamp. -/
  | forget (index : Int)
  /-- A call in `waitApplied` receives from `applyNotifyCh`. -/
  | wake (call : ℕ)
  /-- The context of a call in `waitApplied` is done. -/
  | expire (call : ℕ)
  deriving DecidableEq, Repr

namespace KV

/-- The waiting call of the given name. -/
def findWaiter (s : KV) (call : ℕ) : Option Waiter :=
  s.waiters.find? fun w => w.call = call

/-- One step of a service, with the call that it makes return successfully, if any. There is no step if
the goroutine is not where the event needs it. -/
def step (codec : Codec) (s : KV) : Event → Option (KV × Option Waiter)
  | .apply msg =>
    match s.handler with
    | .receiving => some (s.handleApply codec msg, none)
    | _ => none
  | .notify =>
    match s.handler with
    | .notifying snapshotDue => some (s.notifyApply snapshotDue, none)
    | _ => none
  | .snapshotTaken ok =>
    match s.handler with
    | .snapshotting => some (s.snapshotTaken ok, none)
    | _ => none
  | .wait call command index term =>
    match s.findWaiter call with
    | none =>
      some ({ s with waiters := { call, command, index, term, parked := false } :: s.waiters }, none)
    | some _ => none
  | .check call =>
    match s.findWaiter call with
    | some w =>
      if w.parked then none
      else if s.Satisfied w then some (s.acknowledge w, some w)
      else some (s.setParked w true, none)
    | none => none
  | .forget index => if index ∈ s.forgetting then some (s.forget index, none) else none
  | .wake call =>
    match s.findWaiter call with
    | some w =>
      if w.parked ∧ s.applyNotify then some ({ s.setParked w false with applyNotify := false }, none)
      else none
    | none => none
  | .expire call =>
    match s.findWaiter call with
    | some w => if w.parked then some (s.leave w, none) else none
    | none => none

/-- The steps of a service, with the place in its goroutines that each of them needs. -/
inductive Move (codec : Codec) (s : KV) : Event → KV × Option Waiter → Prop
  | apply (msg : ApplyMsg) (hhandler : s.handler = .receiving) :
      Move codec s (.apply msg) (s.handleApply codec msg, none)
  | notify {snapshotDue : Bool} (hhandler : s.handler = .notifying snapshotDue) :
      Move codec s .notify (s.notifyApply snapshotDue, none)
  | snapshotTaken (ok : Bool) (hhandler : s.handler = .snapshotting) :
      Move codec s (.snapshotTaken ok) (s.snapshotTaken ok, none)
  | wait (call : ℕ) (command : Command) (index term : Int) :
      Move codec s (.wait call command index term)
        ({ s with waiters := { call, command, index, term, parked := false } :: s.waiters }, none)
  | acknowledge {w : Waiter} (hfind : s.findWaiter w.call = some w) (hsatisfied : s.Satisfied w) :
      Move codec s (.check w.call) (s.acknowledge w, some w)
  | park {w : Waiter} (hw : w ∈ s.waiters) (hsatisfied : ¬ s.Satisfied w) :
      Move codec s (.check w.call) (s.setParked w true, none)
  | forget (index : Int) : Move codec s (.forget index) (s.forget index, none)
  | wake {w : Waiter} (hfind : s.findWaiter w.call = some w) :
      Move codec s (.wake w.call) ({ s.setParked w false with applyNotify := false }, none)
  | expire {w : Waiter} (hw : w ∈ s.waiters) : Move codec s (.expire w.call) (s.leave w, none)

/-- Handling a message ends the apply loop, or leads to a notification. The waiting calls stay. -/
theorem handleApply_cases (codec : Codec) (s : KV) (msg : ApplyMsg) :
    s.handleApply codec msg = { s with handler := .stopped } ∨
      (s.handleApply codec msg).waiters = s.waiters ∧
        ∃ snapshotDue, (s.handleApply codec msg).handler = .notifying snapshotDue := by
  cases msg with
  | snapshot data index =>
    simp only [handleApply, handleSnapshot]
    split
    · exact Or.inl rfl
    · exact Or.inr ⟨rfl, _, rfl⟩
  | command command index =>
    simp only [handleApply, handleCommand]
    split
    · exact Or.inl rfl
    · exact Or.inr ⟨rfl, _, rfl⟩

/-- A call found by its name is waiting and has that name. -/
theorem findWaiter_some {s : KV} {call : ℕ} {w : Waiter} (h : s.findWaiter call = some w) :
    w ∈ s.waiters ∧ w.call = call :=
  ⟨List.mem_of_find?_eq_some h, by simpa using List.find?_some h⟩

/-- The step function takes only these steps. -/
theorem Move.of_step {codec : Codec} {s : KV} {e : Event} {result : KV × Option Waiter}
    (h : s.step codec e = some result) : Move codec s e result := by
  cases e with
  | apply | notify | snapshotTaken =>
    simp only [step] at h
    split at h
    · cases h
      constructor
      assumption
    · cases h
  | wait =>
    simp only [step] at h
    split at h
    · cases h
      constructor
    · cases h
  | check call =>
    simp only [step] at h
    split at h
    · have hfind := ‹s.findWaiter call = _›
      obtain ⟨hw, rfl⟩ := findWaiter_some hfind
      split at h
      · cases h
      · split at h
        · cases h
          exact .acknowledge hfind ‹_›
        · cases h
          exact .park hw ‹_›
    · cases h
  | forget =>
    simp only [step] at h
    split at h
    · cases h
      constructor
    · cases h
  | wake call =>
    simp only [step] at h
    split at h
    · have hfind := ‹s.findWaiter call = _›
      obtain ⟨_, rfl⟩ := findWaiter_some hfind
      split at h
      · cases h
        exact .wake hfind
      · cases h
    · cases h
  | expire call =>
    simp only [step] at h
    split at h
    · obtain ⟨hw, rfl⟩ := findWaiter_some ‹_›
      split at h
      · cases h
        exact .expire hw
      · cases h
    · cases h

end KV

end ConsensusLab.Service
