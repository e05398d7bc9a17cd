import ConsensusLab.KV.Encoding
import ConsensusLab.Service.KV

/-!
# Which waiting calls are woken

A notification puts one token into the channel, whichever call takes it keeps it, and a
call that finds its index not yet applied does not pass it on. A satisfied call can
therefore be left parked with nobody to wake it. It cannot if a call takes the token
only while another notification is due or no other satisfied call is parked.
-/

namespace ConsensusLab.Service

open Foundation ConsensusLab.KV

/-- The handler has changed `lastAppliedIndex` and is yet to notify. -/
def Handler.isNotifying : Handler → Bool
  | notifying _ => true
  | _ => false

/-- The apply loop waits for a message or has ended. -/
def Handler.isResting : Handler → Bool
  | receiving | stopped => true
  | _ => false

/-- A satisfied call is parked, the channel is empty, and neither the handler nor any call has a step
left to take. -/
def KV.Stranded (s : KV) : Prop :=
  (∃ w ∈ s.waiters, w.parked = true ∧ s.Satisfied w) ∧ s.applyNotify = false ∧
    s.handler.isResting = true ∧ ∀ w ∈ s.waiters, w.parked = true

instance (s : KV) : Decidable s.Stranded := inferInstanceAs (Decidable (_ ∧ _ ∧ _ ∧ _))

/-- A call takes the token only while another notification is due or no other satisfied call is
parked. -/
def NoneLeftBehind (s : KV) : Event → Prop
  | .wake call => s.handler.isNotifying = true ∨
      ∀ taker ∈ s.findWaiter call, ∀ w ∈ s.waiters.erase taker, w.parked = true → ¬ s.Satisfied w
  | _ => True

instance (s : KV) (e : Event) : Decidable (NoneLeftBehind s e) := by
  cases e <;> unfold NoneLeftBehind <;> infer_instance

/-- A step of a service by an event that is allowed in the current state. -/
abbrev ServiceStep (codec : Codec) (allowed : KV → Event → Prop) : KV → KV → Prop :=
  LabelledStep allowed fun s e => (s.step codec e).map Prod.fst

/-- The states that allowed runs of a service reach, whatever it is told to apply and however often it
takes snapshots. -/
abbrev ServiceReachable (codec : Codec) (allowed : KV → Event → Prop) : KV → Prop :=
  Reachable (fun s => ∃ snapshotEvery, s = newKV snapshotEvery) (ServiceStep codec allowed)

/-- Whoever is parked and satisfied will be notified. -/
def KV.Heralded (s : KV) : Prop :=
  ∀ w ∈ s.waiters, w.parked = true → s.Satisfied w → s.applyNotify = true ∨ s.handler.isNotifying = true

/-- Handling a message that changes the index is followed by a notification. -/
theorem KV.handleApply_heralded (codec : Codec) {s : KV} (h : s.Heralded) (hhandler : s.handler = .receiving)
    (msg : Raft.ApplyMsg) : (s.handleApply codec msg).Heralded := by
  rcases s.handleApply_cases codec msg with hstopped | ⟨_, snapshotDue, hnotifying⟩
  · rw [hstopped]
    intro w hw hparked hsatisfied
    have := h w hw hparked hsatisfied
    rw [hhandler] at this
    simpa [Handler.isNotifying] using this
  · intro w _ _ _
    rw [hnotifying]
    exact Or.inr rfl

/-- Every step that leaves none behind keeps the promise. -/
theorem KV.Move.heralded {codec : Codec} {s : KV} {e : Event} {result : KV × Option Waiter}
    (hmove : Move codec s e result) (h : s.Heralded) (hallowed : NoneLeftBehind s e) : result.1.Heralded := by
  cases hmove with
  | apply msg hhandler => exact handleApply_heralded codec h hhandler msg
  | notify => exact fun _ _ _ _ => Or.inl rfl
  | snapshotTaken ok hhandler =>
    intro w hw hparked hsatisfied
    cases ok
    all_goals
      have := h w hw hparked hsatisfied
      rw [hhandler] at this
      exact this.imp id nofun
  | wait call command index term =>
    intro w hw hparked hsatisfied
    rcases List.mem_cons.mp hw with rfl | hold
    · cases hparked
    · exact h w hold hparked hsatisfied
  | acknowledge | expire =>
    intro w hw hparked hsatisfied
    exact h w (List.mem_of_mem_erase hw) hparked hsatisfied
  | forget => exact h
  | park _ hunsatisfied =>
    intro w hw hparked hsatisfied
    rcases List.mem_cons.mp hw with rfl | hold
    · exact absurd hsatisfied hunsatisfied
    · exact h w (List.mem_of_mem_erase hold) hparked hsatisfied
  | @wake taker hfind =>
    intro w hw hparked hsatisfied
    rcases List.mem_cons.mp hw with rfl | hold
    · cases hparked
    · rcases hallowed with hnotifying | hnone
      · exact Or.inr hnotifying
      · exact absurd hsatisfied (hnone taker hfind w hold hparked)

/-- Two calls wait for indices 1 and 2 and are parked; the command at index 1 is applied. -/
def twoParked : List Event :=
  [.wait 1 (putCommand "x" "1") 1 1, .wait 2 (putCommand "y" "2") 2 1, .check 1, .check 2,
    .apply (.command (jsonCodec.marshalCommand (putCommand "x" "1")) 1), .notify]

end ConsensusLab.Service
