import ConsensusLab.Service.CommittedStores

/-!
# The table of applied timestamps

Every applied command puts a timestamp into `appliedAtByIndex`, and deletes the one that
is `appliedAtRetention` indices older. As long as commands follow each other this keeps
the latest of them. A snapshot moves `lastAppliedIndex` without touching the table, and
the commands that it moves past are at no later command the one to delete. The table of a
service therefore stays within its bound exactly if no message moves past a command whose
timestamp was still due to be kept without deleting it, as snapshots do. Where they keep
doing so the table grows without end.
-/

namespace ConsensusLab.Service

open Foundation ConsensusLab.KV
open Raft (ApplyMsg Bytes)

/-- The table has timestamps of the latest indices only, and not more of them than are to be kept. -/
structure KV.TimestampsBounded (s : KV) : Prop where
  recent : ∀ key ∈ s.appliedAtByIndex, s.lastAppliedIndex - appliedAtRetention < key
  few : s.appliedAtByIndex.card ≤ 4096

/-- The message that an event hands to `handleApply`. -/
def Event.message : Event → Option ApplyMsg
  | apply msg => some msg
  | _ => none

/-- A service, and the messages that it has been handed. -/
structure Journal where
  service : KV
  handled : List ApplyMsg

/-- One step of the service, with what it is handed on record. -/
def Journal.step (codec : Codec) (j : Journal) (e : Event) : Option Journal :=
  (j.service.step codec e).map fun result => ⟨result.1, j.handled ++ e.message.toList⟩

/-- The journals of all runs of a service, whatever it is handed and whatever its calls do. -/
abbrev Journalled (codec : Codec) (snapshotEvery : ℕ) : Journal → Prop :=
  Reachable (· = ⟨newKV snapshotEvery, []⟩) (LabelledStep (fun _ _ => True) (Journal.step codec))

/-- Messages that follow each other from an index on: commands one by one, and snapshots that go ahead
by any amount. -/
def Successive (reached : Int) : List ApplyMsg → Prop
  | [] => True
  | msg :: rest => msg.Continues reached ∧ Successive msg.index rest

/-- The message can be decoded. -/
def Readable (codec : Codec) : ApplyMsg → Prop
  | .command cmd _ => (codec.unmarshalCommand cmd).isSome
  | .snapshot data _ => (Store.restoreSnapshot codec data).isSome

/-- Handling the message deletes the timestamp of an index: commands do, of the index that leaves the window,
if it is positive. -/
def Clears : ApplyMsg → Int → Prop
  | .command _ index, key => key = index - appliedAtRetention ∧ 0 < key
  | .snapshot _ _, _ => False

/-- A message that the service gets to moves past a command that was among the latest `appliedAtRetention`
indices before it and no longer is, and does not delete its timestamp. -/
def PassesOver (codec : Codec) (start : Int) (stream : List ApplyMsg) : Prop :=
  ∃ earlier msg later, stream = earlier ++ msg :: later ∧ (∀ m ∈ earlier ++ [msg], Readable codec m) ∧
    ∃ cmd key, .command cmd key ∈ earlier ∧ streamEnd start earlier - appliedAtRetention < key ∧
      key ≤ msg.index - appliedAtRetention ∧ ¬Clears msg key

/-- The table after a message. -/
def stamped (table : Finset Int) : ApplyMsg → Finset Int
  | .command _ index => KV.stamp table index
  | .snapshot _ _ => table

/-- The table of a service that has handled these messages and from which no call has deleted. -/
def timestamps (handled : List ApplyMsg) : Finset Int := handled.foldl stamped ∅

variable {codec : Codec} {snapshotEvery : ℕ} {start reached : Int} {stream read : List ApplyMsg} {s : KV}
  {msg : ApplyMsg}

/-- A message leads on. -/
theorem le_index_of_continues (h : msg.Continues reached) : reached ≤ msg.index := by
  cases msg with
  | command cmd index => exact h ▸ Int.le_of_lt (Int.lt_succ reached)
  | snapshot data index => exact h

/-- Each part of a stream continues from the end of the part before it. -/
theorem successive_append {earlier later : List ApplyMsg} :
    Successive start (earlier ++ later) ↔ Successive start earlier ∧ Successive (streamEnd start earlier) later := by
  induction earlier generalizing start with
  | nil => exact iff_of_eq (true_and _).symm
  | cons first rest ih => exact (and_congr_right fun _ => ih).trans and_assoc.symm

/-- What is passed over early in a stream is passed over. -/
theorem PassesOver.mono (h : PassesOver codec start read) (hread : read <+: stream) :
    PassesOver codec start stream := by
  obtain ⟨earlier, msg, later, rfl, hpassed⟩ := h
  obtain ⟨more, rfl⟩ := hread
  exact ⟨earlier, msg, later ++ more, by simp, hpassed⟩

/-- One more message. -/
theorem timestamps_concat (handled : List ApplyMsg) (msg : ApplyMsg) :
    timestamps (handled ++ [msg]) = stamped (timestamps handled) msg := by
  simp [timestamps]

namespace KV

/-- A new timestamp comes in, and at most one goes. -/
theorem mem_stamp {table : Finset Int} {index key : Int} :
    key ∈ stamp table index ↔ (key = index ∨ key ∈ table) ∧
      (0 < index - appliedAtRetention → key ≠ index - appliedAtRetention) := by
  simp only [stamp]
  split
  · rename_i hcutoff
    rw [Finset.mem_erase, Finset.mem_insert, and_comm]
    exact and_congr_right fun _ => ⟨fun hne _ => hne, fun hne => hne hcutoff⟩
  · rename_i hcutoff
    rw [Finset.mem_insert]
    exact ⟨fun hkey => ⟨hkey, fun hpos => absurd hpos hcutoff⟩, And.left⟩

/-- If there is nothing to delete, the new timestamp comes in. -/
theorem stamp_of_not_mem {table : Finset Int} {index : Int} (h : index - appliedAtRetention ∉ table) :
    stamp table index = insert index table := by
  ext key
  rw [mem_stamp, Finset.mem_insert]
  refine ⟨And.left, fun hkey => ⟨hkey, fun _ hcutoff => ?_⟩⟩
  rcases hkey with rfl | hold
  · rw [appliedAtRetention] at hcutoff
    omega
  · exact h (hcutoff ▸ hold)

/-- The timestamps after a message: its own, if it is a command, and those that it does not delete. -/
theorem mem_stamped {table : Finset Int} {key : Int} :
    key ∈ stamped table msg ↔ ((∃ cmd, msg = .command cmd key) ∨ key ∈ table) ∧ ¬Clears msg key := by
  cases msg with
  | command cmd index =>
    have hown : (∃ cmd', ApplyMsg.command cmd index = .command cmd' key) ↔ key = index := by
      simp [eq_comm]
    rw [stamped, mem_stamp, hown, Clears, not_and]
    refine and_congr_right fun _ => ⟨fun hne hcutoff hpos => ?_, fun hne hpos hcutoff => ?_⟩
    · exact hne (hcutoff ▸ hpos) hcutoff
    · exact hne hcutoff (hcutoff ▸ hpos)
  | snapshot data index => simp [stamped, Clears]

/-- Handling a message that can be decoded. -/
theorem handleApply_of_readable (s : KV) (h : Readable codec msg) :
    (s.handleApply codec msg).lastAppliedIndex = msg.index ∧
      (s.handleApply codec msg).appliedAtByIndex = stamped s.appliedAtByIndex msg ∧
      ∃ snapshotDue, (s.handleApply codec msg).handler = .notifying snapshotDue := by
  cases msg with
  | command cmd index =>
    obtain ⟨decoded, hdecoded⟩ := Option.isSome_iff_exists.mp h
    simp only [handleApply, handleCommand, Store.apply, hdecoded, Option.map_some]
    exact ⟨rfl, rfl, _, rfl⟩
  | snapshot data index =>
    obtain ⟨store, hstore⟩ := Option.isSome_iff_exists.mp h
    simp only [handleApply, handleSnapshot, hstore]
    exact ⟨rfl, rfl, _, rfl⟩

/-- Handling a message that cannot be decoded ends the apply loop. -/
theorem handleApply_of_not_readable (s : KV) (h : ¬Readable codec msg) :
    s.handleApply codec msg = { s with handler := .stopped } := by
  cases msg with
  | command cmd index =>
    have hnone : codec.unmarshalCommand cmd = none := Option.not_isSome_iff_eq_none.mp h
    simp only [handleApply, handleCommand, Store.apply, hnone, Option.map_none]
  | snapshot data index =>
    have hnone : Store.restoreSnapshot codec data = none := Option.not_isSome_iff_eq_none.mp h
    simp only [handleApply, handleSnapshot, hnone]

/-- Only handling a message adds to the table. -/
theorem Move.timestamps {e : Event} {result : KV × Option Waiter} (hmove : Move codec s e result)
    (happly : ∀ msg, e ≠ .apply msg) : result.1.appliedAtByIndex ⊆ s.appliedAtByIndex := by
  cases hmove with
  | apply msg => exact absurd rfl (happly msg)
  | forget => exact Finset.erase_subset _ _
  | snapshotTaken ok => cases ok <;> exact Finset.Subset.refl _
  | notify | wait | acknowledge | park | wake | expire => exact Finset.Subset.refl _

/-- The timestamps lie in the window that ends at the index which the service has been brought to. -/
structure Window (reached : Int) (s : KV) : Prop where
  recent : ∀ key ∈ s.appliedAtByIndex, s.lastAppliedIndex - appliedAtRetention < key
  keys : ∀ key ∈ s.appliedAtByIndex, reached - appliedAtRetention < key ∧ key ≤ reached

/-- A new service has no timestamps. -/
theorem window_new (snapshotEvery : ℕ) (start : Int) : (newKV snapshotEvery).Window start :=
  ⟨nofun, nofun⟩

/-- As long as they lie in the window, the timestamps are within their bound. -/
theorem Window.bounded (h : s.Window reached) : s.TimestampsBounded where
  recent := h.recent
  few := by
    -- a timestamp is determined by its distance to the end of the window
    have hdistance : ∀ key ∈ s.appliedAtByIndex, (reached - key).toNat ∈ Finset.range 4096 := by
      intro key hkey
      have hkeys := h.keys key hkey
      rw [appliedAtRetention] at hkeys
      exact Finset.mem_range.mpr (by omega)
    have hinjective : Set.InjOn (fun key => (reached - key).toNat) s.appliedAtByIndex := by
      intro key hkey key' hkey' heq
      have hle := (h.keys key hkey).2
      have hle' := (h.keys key' hkey').2
      have heq' : (reached - key).toNat = (reached - key').toNat := heq
      omega
    exact Finset.card_range 4096 ▸ Finset.card_le_card_of_injOn _ hdistance hinjective

/-- Steps that handle no message leave the timestamps in the window. -/
theorem Window.keep {s' : KV} (h : s.Window reached) (hindex : s'.lastAppliedIndex = s.lastAppliedIndex)
    (htable : s'.appliedAtByIndex ⊆ s.appliedAtByIndex) : s'.Window reached :=
  ⟨fun key hkey => hindex ▸ h.recent key (htable hkey), fun key hkey => h.keys key (htable hkey)⟩

/-- The message leaves behind no timestamp that it does not delete. -/
def Retains (s : KV) (msg : ApplyMsg) : Prop :=
  ∀ key ∈ s.appliedAtByIndex, msg.index - appliedAtRetention < key ∨ Clears msg key

/-- Messages move the window, and the timestamps with it unless some are left behind. -/
theorem Window.handleApply (h : s.Window reached) (hreadable : Readable codec msg)
    (hcontinues : msg.Continues reached) (hretains : s.Retains msg) :
    (s.handleApply codec msg).Window msg.index := by
  obtain ⟨hindex, htable, _⟩ := s.handleApply_of_readable hreadable
  have hkeys : ∀ key ∈ (s.handleApply codec msg).appliedAtByIndex,
      msg.index - appliedAtRetention < key ∧ key ≤ msg.index := by
    intro key hkey
    rw [htable] at hkey
    obtain ⟨⟨cmd, rfl⟩ | hold, hclears⟩ := mem_stamped.mp hkey
    · simp only [appliedAtRetention, Raft.ApplyMsg.index]
      omega
    · exact ⟨(hretains key hold).resolve_right hclears,
        Int.le_trans (h.keys key hold).2 (le_index_of_continues hcontinues)⟩
  exact ⟨fun key hkey => hindex ▸ (hkeys key hkey).1, hkeys⟩

/-- A command that follows leaves none behind, as long as they are positive. -/
theorem Window.retains_command (h : s.Window reached) (hpositive : ∀ key ∈ s.appliedAtByIndex, 0 < key)
    (cmd : Bytes) : s.Retains (.command cmd (reached + 1)) := by
  intro key hkey
  have hlow := (h.keys key hkey).1
  rcases lt_or_ge (reached + 1 - appliedAtRetention) key with hlt | hge
  · exact Or.inl hlt
  · exact Or.inr ⟨by omega, hpositive key hkey⟩

end KV

/-- A service that has decoded these messages and has timestamps of their commands only. -/
structure Remembers (codec : Codec) (start : Int) (read : List ApplyMsg) (s : KV) : Prop where
  readable : ∀ msg ∈ read, Readable codec msg
  window : s.Window (streamEnd start read)
  commands : ∀ key ∈ s.appliedAtByIndex, ∃ cmd, .command cmd key ∈ read

/-- One more message that can be decoded. -/
theorem Remembers.readable_concat (h : Remembers codec start read s) (hreadable : Readable codec msg) :
    ∀ m ∈ read ++ [msg], Readable codec m := by
  intro m hm
  rcases List.mem_append.mp hm with hread | hlast
  · exact h.readable m hread
  · exact List.mem_singleton.mp hlast ▸ hreadable

/-- A stream that passes nothing over leaves no timestamp behind. -/
theorem Remembers.retains (h : Remembers codec start read s) (hreadable : Readable codec msg)
    (hpasses : ¬PassesOver codec start (read ++ [msg])) : s.Retains msg := by
  intro key hkey
  by_contra hbehind
  obtain ⟨hpassed, hclears⟩ := not_or.mp hbehind
  obtain ⟨cmd, hcmd⟩ := h.commands key hkey
  exact hpasses ⟨read, msg, [], rfl, h.readable_concat hreadable, cmd, key, hcmd, (h.window.keys key hkey).1,
    Int.not_lt.mp hpassed, hclears⟩

/-- One more message of a stream that passes nothing over. -/
theorem Remembers.handleApply (h : Remembers codec start read s) (hreadable : Readable codec msg)
    (hcontinues : msg.Continues (streamEnd start read)) (hpasses : ¬PassesOver codec start (read ++ [msg])) :
    Remembers codec start (read ++ [msg]) (s.handleApply codec msg) where
  readable := h.readable_concat hreadable
  window := by
    rw [streamEnd_concat]
    exact h.window.handleApply hreadable hcontinues (h.retains hreadable hpasses)
  commands key hkey := by
    rw [(s.handleApply_of_readable hreadable).2.1] at hkey
    rcases (KV.mem_stamped.mp hkey).1 with ⟨cmd, rfl⟩ | hold
    · exact ⟨cmd, by simp⟩
    · obtain ⟨cmd, hcmd⟩ := h.commands key hold
      exact ⟨cmd, List.mem_append_left _ hcmd⟩

/-- What has been decoded is all that has been handled, unless the apply loop has ended. -/
def Journal.Kept (codec : Codec) (start : Int) (j : Journal) : Prop :=
  ∃ read, read <+: j.handled ∧ (j.service.handler ≠ .stopped → read = j.handled) ∧
    Remembers codec start read j.service

/-- Every step of a service keeps its journal, as long as what it is handed continues and passes nothing
over. -/
theorem Journal.Kept.step {j j' : Journal} {e : Event} (h : j.Kept codec start) (hstep : j.step codec e = some j')
    (hstream : Successive start j'.handled) (hpasses : ¬PassesOver codec start j'.handled) :
    j'.Kept codec start := by
  obtain ⟨⟨s', returned⟩, hresult, rfl⟩ := Option.map_eq_some_iff.mp hstep
  obtain ⟨read, hread, hrunning, hremembers⟩ := h
  have hmove := KV.Move.of_step hresult
  by_cases happly : ∃ msg, e = .apply msg
  · obtain ⟨msg, rfl⟩ := happly
    cases hmove with
    | apply _ hhandler =>
      obtain rfl : read = j.handled := hrunning (by rw [hhandler]; nofun)
      by_cases hreadable : Readable codec msg
      · have hcontinues : msg.Continues (streamEnd start j.handled) := (successive_append.mp hstream).2.1
        exact ⟨j.handled ++ [msg], List.prefix_refl _, fun _ => rfl,
          hremembers.handleApply hreadable hcontinues hpasses⟩
      · rw [KV.handleApply_of_not_readable _ hreadable]
        refine ⟨j.handled, List.prefix_append _ _, fun hstopped => absurd rfl hstopped, hremembers.readable, ?_,
          hremembers.commands⟩
        exact hremembers.window.keep rfl (Finset.Subset.refl _)
  · have hother : ∀ msg, e ≠ .apply msg := fun msg he => happly ⟨msg, he⟩
    have hsame : j.handled ++ e.message.toList = j.handled := by
      cases e with
      | apply msg => exact absurd rfl (hother msg)
      | _ => exact List.append_nil _
    have hkeeps := hmove.keeps hother
    have htable := hmove.timestamps hother
    refine ⟨read, hsame.symm ▸ hread, fun hnot => ?_, hremembers.readable,
      hremembers.window.keep hkeeps.lastAppliedIndex htable, fun key hkey => hremembers.commands key (htable hkey)⟩
    exact (hrunning fun hstopped => hnot (hkeeps.stopped hstopped)).trans hsame.symm

/-- Whatever calls do, the journal of a service that is handed the beginning of such a stream is kept. -/
theorem Journalled.kept {j : Journal} (run : Journalled codec snapshotEvery j)
    (hstream : Successive start stream) (hpasses : ¬PassesOver codec start stream) (hhandled : j.handled <+: stream) :
    j.Kept codec start := by
  refine run.invariant (P := fun j => j.handled <+: stream → j.Kept codec start) ?_ ?_ hhandled
  · rintro j rfl _
    exact ⟨[], List.prefix_refl _, fun _ => rfl, nofun, KV.window_new snapshotEvery start, nofun⟩
  · rintro j j' _ ih ⟨e, _, hstep⟩ hhandled'
    have hbefore : j.handled <+: j'.handled := by
      obtain ⟨_, _, rfl⟩ := Option.map_eq_some_iff.mp hstep
      exact List.prefix_append _ _
    have hsuccessive : Successive start j'.handled := by
      obtain ⟨more, rfl⟩ := hhandled'
      exact (successive_append.mp hstream).1
    exact (ih (hbefore.trans hhandled')).step hstep hsuccessive fun hpassed => hpasses (hpassed.mono hhandled')

/-- A service that waits for a message handles one that can be decoded and waits for the next, without any
call doing anything meanwhile. -/
theorem Journalled.handle (run : Journalled codec snapshotEvery ⟨s, read⟩) (hhandler : s.handler = .receiving)
    (hreadable : Readable codec msg) :
    ∃ s', Journalled codec snapshotEvery ⟨s', read ++ [msg]⟩ ∧ s'.handler = .receiving ∧
      s'.lastAppliedIndex = msg.index ∧ s'.appliedAtByIndex = stamped s.appliedAtByIndex msg := by
  obtain ⟨hindex, htable, snapshotDue, hnotifying⟩ := s.handleApply_of_readable hreadable
  have happlied : Journalled codec snapshotEvery ⟨s.handleApply codec msg, read ++ [msg]⟩ :=
    .next run ⟨.apply msg, trivial, by simp [Journal.step, KV.step, hhandler, Event.message]⟩
  have hnotified : Journalled codec snapshotEvery
      ⟨(s.handleApply codec msg).notifyApply snapshotDue, read ++ [msg]⟩ :=
    .next happlied ⟨.notify, trivial, by simp [Journal.step, KV.step, hnotifying, Event.message]⟩
  cases snapshotDue with
  | false => exact ⟨_, hnotified, rfl, hindex, htable⟩
  | true =>
    refine ⟨((s.handleApply codec msg).notifyApply true).snapshotTaken true,
      .next hnotified ⟨.snapshotTaken true, trivial, ?_⟩, rfl, hindex, htable⟩
    simp [Journal.step, KV.step, KV.notifyApply, Event.message]

/-- A service can handle any messages that can be decoded. -/
theorem exists_journalled (snapshotEvery : ℕ) (hreadable : ∀ msg ∈ read, Readable codec msg) :
    ∃ s, Journalled codec snapshotEvery ⟨s, read⟩ ∧ s.handler = .receiving ∧
      s.appliedAtByIndex = timestamps read := by
  induction read using List.reverseRecOn with
  | nil => exact ⟨newKV snapshotEvery, .first rfl, rfl, rfl⟩
  | append_singleton read msg ih =>
    obtain ⟨s, run, hhandler, htable⟩ := ih fun msg' hmsg' => hreadable msg' (List.mem_append_left _ hmsg')
    obtain ⟨s', run', hhandler', _, htable'⟩ := run.handle hhandler (hreadable msg (by simp))
    exact ⟨s', run', hhandler', by rw [htable', htable, timestamps_concat]⟩

/-- No command deletes a timestamp that is due to be kept. -/
theorem mem_timestamps {cmd : Bytes} {key : Int} (hstream : Successive start read) (hcmd : .command cmd key ∈ read)
    (hkept : streamEnd start read - appliedAtRetention < key) : key ∈ timestamps read := by
  induction read using List.reverseRecOn with
  | nil => cases hcmd
  | append_singleton read msg ih =>
    obtain ⟨hearlier, hcontinues, _⟩ := successive_append.mp hstream
    rw [streamEnd_concat] at hkept
    rw [timestamps_concat]
    have hlate : msg.index - appliedAtRetention < key := hkept
    have hclears : ¬Clears msg key := by
      intro hclears
      cases msg with
      | command => exact absurd hclears.1 (Int.ne_of_gt hlate)
      | snapshot => exact hclears
    refine KV.mem_stamped.mpr ⟨?_, hclears⟩
    rcases List.mem_append.mp hcmd with hread | hlast
    · have := le_index_of_continues hcontinues
      exact Or.inr (ih hearlier hread (by omega))
    · exact Or.inl ⟨cmd, (List.mem_singleton.mp hlast).symm⟩

/-- **The table of timestamps.** However a service is handed the beginning of a stream of messages, and
whatever its calls do, its timestamps stay within their bound, exactly if no message of the stream that the
service gets to passes over a command whose timestamp was due to be kept. -/
theorem timestamps_bounded_iff (hstream : Successive start stream) :
    (∀ j, Journalled codec snapshotEvery j → j.handled <+: stream → j.service.TimestampsBounded) ↔
      ¬PassesOver codec start stream := by
  constructor
  · rintro hbounded ⟨earlier, msg, later, rfl, hreadable, cmd, key, hcmd, hkept, hpassed, hclears⟩
    -- the calls leave the table alone, so the timestamp is there when the message comes, and still afterwards
    have hearlier : ∀ m ∈ earlier, Readable codec m := fun m hm => hreadable m (List.mem_append_left _ hm)
    obtain ⟨s, run, hhandler, htable⟩ := exists_journalled snapshotEvery hearlier
    obtain ⟨s', run', _, hindex, htable'⟩ := run.handle hhandler (hreadable msg (by simp))
    have hkey : key ∈ s'.appliedAtByIndex := by
      rw [htable', htable]
      exact KV.mem_stamped.mpr ⟨Or.inr (mem_timestamps (successive_append.mp hstream).1 hcmd hkept), hclears⟩
    have hrecent := (hbounded _ run' ⟨later, by simp⟩).recent key hkey
    rw [hindex] at hrecent
    exact absurd hrecent (Int.not_lt.mpr hpassed)
  · intro hpasses j run hhandled
    obtain ⟨read, _, _, hremembers⟩ := run.kept hstream hpasses hhandled
    exact hremembers.window.bounded

/-- Some value is put. -/
def somePut (index : Int) : ApplyMsg := .command (jsonCodec.marshalCommand (putCommand "x" "1")) index

/-- The store is replaced by an empty one. -/
def someSnapshot (index : Int) : ApplyMsg := .snapshot (newStore.snapshot jsonCodec) index

/-- Two commands, a snapshot that goes ahead as far as it may, and another command. -/
def nearSnapshot : List ApplyMsg := [somePut 1, somePut 2, someSnapshot 4096, somePut 4097]

/-- A service handles these messages, and a call deletes its timestamp. -/
theorem timestamps_bounded_after_near_snapshot :
    ∃ j, Journalled jsonCodec 0 j ∧ j.handled = nearSnapshot ∧
      j.service.appliedAtByIndex = {2, 4097} ∧ j.service.TimestampsBounded := by
  have hrun : (execute (fun _ _ => True) (Journal.step jsonCodec) ⟨newKV 0, []⟩
      [.wait 1 (putCommand "x" "1") 1 1, .apply (somePut 1), .notify, .check 1, .apply (somePut 2), .forget 1,
        .notify, .apply (someSnapshot 4096), .notify, .apply (somePut 4097)]).map
      (fun j => (j.handled, j.service.appliedAtByIndex)) =
        some (nearSnapshot, {2, 4097}) := by
    decide +kernel
  obtain ⟨j, run, hfacts⟩ : ∃ j, Journalled jsonCodec 0 j ∧ _ = _ := exists_reachable_of_execute rfl hrun
  obtain ⟨hhandled, htable⟩ := Prod.mk.inj hfacts
  have hpasses : ¬PassesOver jsonCodec 0 nearSnapshot := by
    rintro ⟨earlier, msg, later, hstream, -, cmd, key, hcmd, -, hkey, hclears⟩
    have hmsg : msg ∈ nearSnapshot := hstream ▸ List.mem_append_right _ List.mem_cons_self
    have hcommand : .command cmd key ∈ nearSnapshot := hstream ▸ List.mem_append_left _ hcmd
    have hkeys : key = 1 ∨ key = 2 ∨ key = 4097 := by
      simp only [nearSnapshot, somePut, someSnapshot, List.mem_cons, ApplyMsg.command.injEq, reduceCtorEq,
        List.not_mem_nil, or_false, false_or] at hcommand
      omega
    simp only [nearSnapshot, List.mem_cons, List.not_mem_nil, or_false] at hmsg
    rcases hmsg with rfl | rfl | rfl | rfl
    all_goals simp only [somePut, someSnapshot, Raft.ApplyMsg.index, Clears, appliedAtRetention] at hkey hclears
    all_goals omega
  have hstream : Successive 0 nearSnapshot :=
    ⟨rfl, rfl, show (2 : Int) ≤ 4096 by decide, rfl, trivial⟩
  exact ⟨j, run, hhandled, htable,
    (timestamps_bounded_iff hstream).mpr hpasses j run (hhandled ▸ List.prefix_refl _)⟩

/-- After the first command a snapshot of the first 4097 is applied, and the timestamp stays. -/
theorem timestamp_outlives_snapshot :
    ∃ j, Journalled jsonCodec 0 j ∧ j.handled = [somePut 1, someSnapshot 4097] ∧ Successive 0 j.handled ∧
      j.service.lastAppliedIndex = 4097 ∧ 1 ∈ j.service.appliedAtByIndex ∧ ¬j.service.TimestampsBounded := by
  have hrun : (execute (fun _ _ => True) (Journal.step jsonCodec) ⟨newKV 0, []⟩
      [.apply (somePut 1), .notify, .apply (someSnapshot 4097)]).map
      (fun j => (j.handled, j.service.lastAppliedIndex, j.service.appliedAtByIndex)) =
        some ([somePut 1, someSnapshot 4097], 4097, {1}) := by
    decide +kernel
  obtain ⟨j, run, hfacts⟩ : ∃ j, Journalled jsonCodec 0 j ∧ _ = _ := exists_reachable_of_execute rfl hrun
  obtain ⟨hhandled, hrest⟩ := Prod.mk.inj hfacts
  obtain ⟨hindex, htable⟩ := Prod.mk.inj hrest
  have hstream : Successive 0 [somePut 1, someSnapshot 4097] := ⟨rfl, show (1 : Int) ≤ 4097 by decide, trivial⟩
  have hkey : 1 ∈ j.service.appliedAtByIndex := by rw [htable]; decide
  refine ⟨j, run, hhandled, hhandled ▸ hstream, hindex, hkey, fun hbounded => ?_⟩
  have hrecent := hbounded.recent 1 hkey
  rw [hindex] at hrecent
  exact absurd hrecent (by decide)

/-- The messages that a codec has written itself can be decoded. -/
theorem readable_snapshot (codec : Codec) (store : Store) (index : Int) :
    Readable codec (.snapshot (store.snapshot codec) index) := by
  simp [Readable, restoreSnapshot_snapshot]

/-- The same for commands. -/
theorem readable_command (codec : Codec) (cmd : Command) (index : Int) :
    Readable codec (.command (codec.marshalCommand cmd) index) := by
  simp [Readable, codec.unmarshalCommand_marshal]

/-- Two further messages leave a service with one more timestamp. -/
theorem Journalled.grow (run : Journalled codec snapshotEvery ⟨s, read⟩) (hhandler : s.handler = .receiving)
    (hstream : Successive start read) (hkeys : ∀ key ∈ s.appliedAtByIndex, key ≤ streamEnd start read) :
    ∃ s' read', Journalled codec snapshotEvery ⟨s', read'⟩ ∧ s'.handler = .receiving ∧ Successive start read' ∧
      (∀ key ∈ s'.appliedAtByIndex, key ≤ streamEnd start read') ∧
      s'.appliedAtByIndex.card = s.appliedAtByIndex.card + 1 := by
  -- behind the snapshot, the command that follows finds nothing where it deletes
  obtain ⟨s₁, run₁, hhandler₁, _, htable₁⟩ := run.handle hhandler
    (readable_snapshot codec newStore (streamEnd start read + appliedAtRetention))
  obtain ⟨s₂, run₂, hhandler₂, _, htable₂⟩ := run₁.handle hhandler₁
    (readable_command codec (putCommand "" "") (streamEnd start read + appliedAtRetention + 1))
  have htable : s₂.appliedAtByIndex =
      insert (streamEnd start read + appliedAtRetention + 1) s.appliedAtByIndex := by
    rw [htable₂, htable₁]
    refine KV.stamp_of_not_mem fun hcutoff => ?_
    have := hkeys _ hcutoff
    omega
  refine ⟨s₂, _, run₂, hhandler₂, ?_, fun key hkey => ?_, ?_⟩
  · rw [List.append_assoc]
    refine successive_append.mpr ⟨hstream, ?_, rfl, trivial⟩
    exact Int.le_add_of_nonneg_right (by decide)
  · rw [streamEnd_concat]
    rw [htable] at hkey
    rcases Finset.mem_insert.mp hkey with rfl | hold
    · exact Int.le_refl _
    · have := hkeys key hold
      simp only [appliedAtRetention, Raft.ApplyMsg.index]
      omega
  · rw [htable]
    refine Finset.card_insert_of_notMem fun hmem => ?_
    have := hkeys _ hmem
    simp only [appliedAtRetention] at this
    omega

/-- **Nothing bounds the table.** Commands and snapshots in turn leave a service with any number of
timestamps. -/
theorem timestamps_unbounded (codec : Codec) (snapshotEvery n : ℕ) :
    ∃ j, Journalled codec snapshotEvery j ∧ Successive 0 j.handled ∧ j.service.appliedAtByIndex.card = n := by
  have hgrown : ∃ s read, Journalled codec snapshotEvery ⟨s, read⟩ ∧ s.handler = .receiving ∧ Successive 0 read ∧
      (∀ key ∈ s.appliedAtByIndex, key ≤ streamEnd 0 read) ∧ s.appliedAtByIndex.card = n := by
    induction n with
    | zero => exact ⟨newKV snapshotEvery, [], .first rfl, rfl, trivial, nofun, rfl⟩
    | succ n ih =>
      obtain ⟨s, read, run, hhandler, hstream, hkeys, hcard⟩ := ih
      obtain ⟨s', read', run', hhandler', hstream', hkeys', hcard'⟩ := run.grow hhandler hstream hkeys
      exact ⟨s', read', run', hhandler', hstream', hkeys', by rw [hcard', hcard]⟩
  obtain ⟨s, read, run, _, hstream, _, hcard⟩ := hgrown
  exact ⟨⟨s, read⟩, run, hstream, hcard⟩

/-- A service that receives a snapshot has no timestamp that the snapshot leaves behind. -/
def System.Retains (sys : System) : SystemAction → Prop
  | .receive id => ∀ data index, (sys.channels id).head? = some (.snapshot data index) →
      ∀ key ∈ (sys.services id).appliedAtByIndex, index - appliedAtRetention < key
  | _ => True

/-- The timestamps lie in the window up to what the service has applied, and are those of log entries. -/
structure KV.LogTimestamps (s : KV) : Prop where
  window : s.Window s.lastAppliedIndex
  positive : ∀ key ∈ s.appliedAtByIndex, 0 < key

/-- The timestamps of all members are as they should be. -/
def System.Timestamped (dep : Deployment) (sys : System) : Prop :=
  ∀ id ∈ dep.members.ids, (sys.services id).LogTimestamps

/-- A new service has no timestamps of the log. -/
theorem KV.logTimestamps_new (snapshotEvery : ℕ) : (newKV snapshotEvery).LogTimestamps :=
  ⟨KV.window_new snapshotEvery 0, nofun⟩

/-- Steps that handle no message leave the timestamps of the log as they should be. -/
theorem KV.LogTimestamps.keep {s' : KV} (h : s.LogTimestamps) (hindex : s'.lastAppliedIndex = s.lastAppliedIndex)
    (htable : s'.appliedAtByIndex ⊆ s.appliedAtByIndex) : s'.LogTimestamps := by
  refine ⟨?_, fun key hkey => h.positive key (htable hkey)⟩
  rw [hindex]
  exact h.window.keep hindex htable

/-- Messages that follow each other and leave nothing behind do so as well. -/
theorem KV.LogTimestamps.handleApply (h : s.LogTimestamps) (hreadable : Readable codec msg)
    (hnonneg : 0 ≤ s.lastAppliedIndex) (hcontinues : msg.Continues s.lastAppliedIndex)
    (hretains : s.Retains msg) : (s.handleApply codec msg).LogTimestamps := by
  obtain ⟨hindex, htable, _⟩ := s.handleApply_of_readable hreadable
  refine ⟨?_, fun key hkey => ?_⟩
  · rw [hindex]
    exact h.window.handleApply hreadable hcontinues hretains
  · rw [htable] at hkey
    rcases (KV.mem_stamped.mp hkey).1 with ⟨cmd, rfl⟩ | hold
    · have hnext : key = s.lastAppliedIndex + 1 := hcontinues
      omega
    · exact h.positive key hold

variable {dep : Deployment} {sys sys' : System}

/-- The nodes do nothing to the services but start them again. -/
theorem System.Timestamped.advance {action : Raft.Action} {tr : Raft.Transition} (h : sys.Timestamped dep)
    (hadvance : sys.advance dep action = some (sys', tr)) : sys'.Timestamped dep := by
  obtain ⟨_, _, _, _, _, _, rfl⟩ := System.advance_cases hadvance
  intro id hid
  unfold System.follow
  split
  · by_cases heq : id = tr.id
    · subst heq
      simp only [Function.update_self]
      exact KV.logTimestamps_new _
    · simp only [Function.update_of_ne heq]
      exact h id hid
  · exact h id hid

/-- A step of a service, given what it does to the timestamps of that service. -/
theorem System.Timestamped.serve {id : String} {event : Event} (h : sys.Timestamped dep)
    (hserve : sys.serve dep id event = some sys')
    (hmove : ∀ result, KV.Move dep.codec (sys.services id) event result → id ∈ dep.members.ids →
      result.1.LogTimestamps) : sys'.Timestamped dep := by
  obtain ⟨⟨s, returned⟩, hstep, rfl⟩ := Option.map_eq_some_iff.mp hserve
  intro other hother
  by_cases heq : other = id
  · subst heq
    simp only [Function.update_self]
    exact hmove _ (KV.Move.of_step hstep) hother
  · simp only [Function.update_of_ne heq]
    exact h other hother

/-- A step of a service that handles no message. -/
theorem System.Timestamped.serve_other {id : String} {event : Event} (h : sys.Timestamped dep)
    (hevent : ∀ msg, event ≠ .apply msg) (hserve : sys.serve dep id event = some sys') : sys'.Timestamped dep := by
  refine h.serve hserve fun result hmove hid => ?_
  exact (h id hid).keep (hmove.keeps hevent).lastAppliedIndex (hmove.timestamps hevent)

/-- A service handles the first message of its channel, which continues from what it has applied. -/
theorem System.Timestamped.receive {a : Raft.RaftLog} (h : sys.Timestamped dep) (hfollows : sys.Follows dep a)
    {id : String} {rest : List ApplyMsg} (hchannel : sys.channels id = msg :: rest)
    (hretains : sys.Retains (.receive id))
    (hserve : { sys with channels := Function.update sys.channels id rest }.serve dep id (.apply msg) =
      some sys') : sys'.Timestamped dep := by
  have hsame : System.Timestamped dep { sys with channels := Function.update sys.channels id rest } := h
  refine hsame.serve hserve fun result hmove hid => ?_
  cases hmove with
  | apply _ hhandler =>
    have hrunning : (sys.services id).handler ≠ .stopped := by
      intro hstopped
      rw [hstopped] at hhandler
      cases hhandler
    have hsound := (hfollows.processes id hid).channel hrunning
    rw [hchannel] at hsound
    have hcontinues := hsound.stream.1
    have hkept : (sys.services id).Retains msg := by
      cases msg with
      | command cmd index =>
        obtain rfl : index = (sys.services id).lastAppliedIndex + 1 := hcontinues
        exact (h id hid).window.retains_command (h id hid).positive cmd
      | snapshot data index =>
        exact fun key hkey => Or.inl (hretains data index (by rw [hchannel]; rfl) key hkey)
    by_cases hreadable : Readable dep.codec msg
    · exact (h id hid).handleApply hreadable (hfollows.processes id hid).store.nonneg hcontinues hkept
    · rw [KV.handleApply_of_not_readable _ hreadable]
      exact (h id hid).keep rfl (Finset.Subset.refl _)

/-- **The tables of a cluster.** In every run of a system whose storage works, the timestamps of every
member stay within their bound as long as no service receives a snapshot that leaves some of them behind. -/
theorem services_timestamps_bounded
    (run : SystemReachable dep (fun sys act => StorageSucceeds sys act ∧ sys.Retains act) sys) {id : String}
    (hid : id ∈ dep.members.ids) : (sys.services id).TimestampsBounded := by
  have htimestamped : sys.Timestamped dep := by
    refine run.invariant (P := fun sys => sys.Timestamped dep) ?_ ?_
    · rintro sys rfl id _
      exact KV.logTimestamps_new _
    · rintro sys sys' run h ⟨act, ⟨hcalm, hretains⟩, hstep⟩
      have hrun : SystemReachable dep StorageSucceeds sys :=
        run.mono fun _ _ ⟨act, hallowed, hstep⟩ => ⟨act, hallowed.1, hstep⟩
      obtain ⟨a, _, hfollows⟩ := System.follows_of_reachable hrun
      cases System.Turn.of_step hstep with
      | raft _ hadvance => exact h.advance hadvance
      | propose hadvance hwait =>
        rcases hwait with ⟨_, rfl⟩ | ⟨_, _, hserve⟩
        · exact h.advance hadvance
        · exact (h.advance hadvance).serve_other (fun msg happly => by cases happly) hserve
      | receive hchannel hserve =>
        exact h.receive hfollows hchannel hretains hserve
      | snapshot _ hadvance hreturn =>
        rcases hreturn with ⟨_, rfl⟩ | hserve
        · exact h.advance hadvance
        · exact (h.advance hadvance).serve_other (fun msg happly => by cases happly) hserve
      | serve hlocal hserve =>
        refine h.serve_other (fun msg happly => ?_) hserve
        subst happly
        cases hlocal
  exact (htimestamped id hid).window.bounded

end ConsensusLab.Service
