import ConsensusLab.Raft.ServerRuns
import ConsensusLab.Foundation.LogOrder

/-!
# What survives a restart

The stored log has a base of its own, and a crash or failure between saving a snapshot
and replacing the log leaves that base behind the snapshot. `NewNode` trims for that,
but later appends go behind whatever is stored and truncations count from the snapshot,
so from then on acknowledged entries can be lost or come back at other indices. Where a
node writes to its log only while the stored log lines up with the one in memory, every
restart restores the log as it was.

A server is audited by two ledgers: what it has acknowledged and not truncated since,
and what was ever put at an index.
-/

namespace ConsensusLab.Raft

open Foundation

/-- The first index at which the node's own entry conflicts with one of a request's. -/
def Node.firstConflict (n : Node) (index : Int) : List LogEntry → Option Int
  | [] => none
  | entry :: rest =>
    match n.entryAt index with
    | none => if index ≤ n.snapshotIndex then n.firstConflict (index + 1) rest else none
    | some own => if own.term = entry.term then n.firstConflict (index + 1) rest else some index

/-- The index from which a step has truncated the stored log for a conflict: the stored log does not
go on from what it was. -/
def Server.truncatedFrom (before after : Server) : Input → Option Int
  | .receive (.append req) =>
    if before.disk.log <+: after.disk.log then none
    else before.node.firstConflict (req.prevLogIndex + 1) req.entries
  | _ => none

/-- The indices that a step acknowledges: those of the entries of a successful AppendEntries, or that
of an accepted command. -/
def acknowledgedIndices (effects : Effects) : Input → List Int
  | .receive (.append req) =>
    match effects.reply with
    | some (.append resp) =>
      if resp.success then (List.range req.entries.length).map fun j : ℕ => req.prevLogIndex + 1 + j
      else []
    | _ => []
  | _ => effects.accepted.toList

/-- The entries that an input puts at indices. -/
def Server.puts (sv : Server) : Input → List (Int × LogEntry)
  | .receive (.append req) => req.entries.mapIdx fun j entry => (req.prevLogIndex + 1 + (j : Int), entry)
  | .startCommand cmd => [(sv.node.lastLogIndex + 1, sv.node.newEntry cmd)]
  | _ => []

/-- A server with its ledgers. -/
structure Audited where
  server : Server
  /-- What has been acknowledged at an index and not been truncated for a conflict since. -/
  acked : List (Int × LogEntry)
  /-- What was ever put at an index. -/
  placed : List (Int × LogEntry)

/-- The ledger of acknowledged entries without those that were truncated. -/
def keepBelow (ledger : List (Int × LogEntry)) : Option Int → List (Int × LogEntry)
  | none => ledger
  | some index => ledger.filter fun p => p.1 < index

/-- Keep the ledgers over a step. -/
def Audited.record (s : Audited) (input : Input) (after : Server) (effects : Effects) : Audited where
  server := after
  acked := ((acknowledgedIndices effects input).filterMap fun i => (after.node.entryAt i).map fun e => (i, e)) ++
    keepBelow s.acked (s.server.truncatedFrom after input)
  placed := s.server.puts input ++ s.placed

/-- One step of an audited server. -/
def Audited.step (s : Audited) (drive : Drive) : Option Audited :=
  (s.server.step drive.fresh drive.fates drive.input).map fun (after, effects) =>
    s.record drive.input after effects

/-- A node started over empty storage. -/
def Audited.first (id : String) (peers : List String) : Audited where
  server := Server.boot id peers .empty
  acked := []
  placed := []

/-- What was acknowledged behind the snapshot and not truncated since is where it was, and every entry
is at an index where it was put. -/
def Audited.Durable (s : Audited) : Prop :=
  (∀ p ∈ s.acked, s.server.node.snapshotIndex < p.1 → s.server.node.entryAt p.1 = some p.2) ∧
    ∀ i e, s.server.node.entryAt i = some e → (i, e) ∈ s.placed

/-- The stored log ends where the log in memory ends. -/
def Server.StoredToEnd (sv : Server) : Prop :=
  sv.disk.logBase + sv.disk.log.length = sv.node.lastLogIndex

instance (sv : Server) : Decidable sv.StoredToEnd :=
  inferInstanceAs (Decidable (_ = _))

/-- Entries are stored while the stored log ends where the one in memory ends, and stored entries are truncated
while the two start together. -/
def StorageCall.LinesUp (sv : Server) : StorageCall → Prop
  | appendLog _ => sv.StoredToEnd
  | truncateLog _ => sv.disk.logBase = sv.node.snapshotIndex
  | saveHardState _ | setLog _ _ | saveSnapshot _ => True

instance (sv : Server) (call : StorageCall) : Decidable (call.LinesUp sv) := by
  unfold StorageCall.LinesUp
  split <;> infer_instance

/-- The calls of a step that take effect write to the log only while it lines up with its stored copy. -/
def LinedUp (sv : Server) (drive : Drive) : Prop :=
  ∀ call ∈ sv.performed drive.fresh drive.fates drive.input, call.LinesUp sv

instance (sv : Server) (drive : Drive) : Decidable (LinedUp sv drive) :=
  inferInstanceAs (Decidable (∀ call ∈ _, _))

section Entries

variable {n n' : Node} {i : Int} {e : LogEntry}

/-- Held entries do not conflict, so the first entry that conflicts is the one behind them. -/
theorem Node.firstConflict_of_holds {index : Int} {held rest : List LogEntry} {entry own : LogEntry}
    (hheld : n.Holds index held) (hown : n.entryAt (index + held.length) = some own)
    (hterm : own.term ≠ entry.term) :
    n.firstConflict index (held ++ entry :: rest) = some (index + held.length) := by
  induction held generalizing index with
  | nil =>
    simp only [List.length_nil, Int.natCast_zero, Int.add_zero] at hown ⊢
    simp only [List.nil_append, firstConflict, hown, if_neg hterm]
  | cons first held ih =>
    have hshift : index + ((first :: held).length : Int) = index + 1 + held.length := by
      rw [List.length_cons]
      omega
    have hrest : n.Holds (index + 1) held := by
      intro j e he
      have := hheld (j + 1) e he
      rwa [show index + ((j + 1 : ℕ) : Int) = index + 1 + j by omega] at this
    have hnext := ih hrest (by rw [← hshift]; exact hown)
    rw [hshift]
    simp only [List.cons_append, firstConflict]
    rcases hheld 0 first rfl with hcovered | ⟨held₀, hheld₀, hsame⟩
    · simp only [Int.natCast_zero, Int.add_zero] at hcovered
      have hnone : n.entryAt index = none := if_pos (by omega)
      simp only [hnone, if_pos hcovered, hnext]
    · simp only [Int.natCast_zero, Int.add_zero] at hheld₀
      simp only [hheld₀, if_pos hsame, hnext]

end Entries

/-- A restart restores the log that the node has: the stored one without what the snapshot covers. -/
structure Restorable (n : Node) (d : PersistentState) : Prop where
  index : n.snapshotIndex = d.snapshot.elim 0 Snapshot.lastIncludedIndex
  base : d.logBase ≤ n.snapshotIndex
  log : n.log = d.log.drop (n.snapshotIndex - d.logBase).toNat

namespace Restorable

variable {n n' : Node} {d d' : PersistentState}

/-- Only the log, its start and the files matter. -/
theorem keep (h : Restorable n d) (hindex : n'.snapshotIndex = n.snapshotIndex) (hlog : n'.log = n.log)
    (hfiles : d'.files = d.files) : Restorable n' d' := by
  simp only [PersistentState.files, Prod.mk.injEq] at hfiles
  obtain ⟨hbase, hstored, hsnap⟩ := hfiles
  exact ⟨by rw [hindex, hsnap, h.index], by rw [hindex, hbase]; exact h.base,
    by rw [hlog, hindex, hbase, hstored, h.log]⟩

/-- A restart restores the start of the log and the log. -/
theorem restored (h : Restorable n d) (id : String) (peers : List String) :
    (newNode id peers d).snapshotIndex = n.snapshotIndex ∧ (newNode id peers d).log = n.log := by
  have hbase := h.base
  refine ⟨by rw [newNode_snapshotIndex, h.index], ?_⟩
  rw [newNode_log, ← h.index, h.log]
  rcases Nat.le_total (n.snapshotIndex - d.logBase).toNat d.log.length with hle | hle
  · rw [show (min (max 0 (n.snapshotIndex - d.logBase)) (d.log.length : Int)).toNat =
      (n.snapshotIndex - d.logBase).toNat by omega]
  · rw [List.drop_eq_nil_of_le hle, List.drop_eq_nil_of_le (by omega)]

/-- Extending a log that is stored to its end. -/
theorem append (h : Restorable n d) (hend : d.logBase + d.log.length = n.lastLogIndex)
    (entries : List LogEntry) :
    Restorable { n with log := n.log ++ entries } { d with log := d.log ++ entries } where
  index := h.index
  base := h.base
  log := by
    change n.log ++ entries = (d.log ++ entries).drop (n.snapshotIndex - d.logBase).toNat
    have hstored : (n.snapshotIndex - d.logBase).toNat ≤ d.log.length := by
      unfold Node.lastLogIndex at hend
      omega
    rw [List.drop_append_of_le_length hstored, h.log]

/-- Replacing the end of a log that is stored from its start on. -/
theorem replace (h : Restorable n d) (hstart : d.logBase = n.snapshotIndex) (index : Int)
    (entries : List LogEntry) :
    Restorable { n with log := n.log.take (index - n.snapshotIndex - 1).toNat ++ entries }
      { d with log := d.log.take (max 0 (index - n.snapshotIndex - 1)).toNat ++ entries } where
  index := h.index
  base := h.base
  log := by
    change n.log.take (index - n.snapshotIndex - 1).toNat ++ entries =
      (d.log.take (max 0 (index - n.snapshotIndex - 1)).toNat ++ entries).drop
        (n.snapshotIndex - d.logBase).toNat
    have hlog := h.log
    rw [hstart, Int.sub_self] at hlog ⊢
    rw [hlog]
    simp only [Int.toNat_zero, List.drop_zero,
      show (max 0 (index - n.snapshotIndex - 1)).toNat = (index - n.snapshotIndex - 1).toNat by omega]

/-- A snapshot is saved, and the log is replaced on disk or not. -/
theorem saved (h : Restorable n d) {snap : Snapshot} (hindex : n'.snapshotIndex = snap.lastIncludedIndex)
    (hle : n.snapshotIndex ≤ snap.lastIncludedIndex)
    (hlog : n'.log = n.log.drop (snap.lastIncludedIndex - n.snapshotIndex).toNat) (stored : Bool) :
    Restorable n' (LogEvent.saved d snap n'.log stored) := by
  have hbase := h.base
  cases stored with
  | true =>
    refine ⟨hindex, Int.le_of_eq hindex.symm, ?_⟩
    change n'.log = n'.log.drop (n'.snapshotIndex - snap.lastIncludedIndex).toNat
    rw [hindex, Int.sub_self, Int.toNat_zero, List.drop_zero]
  | false =>
    refine ⟨hindex, by rw [hindex]; exact Int.le_trans hbase hle, ?_⟩
    change n'.log = d.log.drop (n'.snapshotIndex - d.logBase).toNat
    rw [hlog, h.log, List.drop_drop, hindex]
    congr 1
    omega

end Restorable

section Steps

variable {sv after : Server} {drive : Drive} {ev : LogEvent} {input : Input}

/-- The event writes to the stored log only while it lines up with the one in memory. -/
def LogEvent.LinesUp (sv : Server) : LogEvent → Prop
  | append _ => sv.StoredToEnd
  | truncate _ | replace _ _ => sv.disk.logBase = sv.node.snapshotIndex
  | none | install _ _ | compact _ _ => True

/-- Lined-up steps cause lined-up events. -/
theorem LinedUp.event (hlined : LinedUp sv drive)
    (hshown : ev.ShownBy (sv.performed drive.fresh drive.fates drive.input)) : ev.LinesUp sv := by
  cases ev with
  | append => exact hlined _ hshown
  | truncate | replace =>
    obtain ⟨_, hcall⟩ := hshown
    exact hlined _ hcall
  | none | install | compact => trivial

/-- Events of a log that is lined up with its stored copy keep it restorable. -/
theorem Restorable.event (h : Restorable sv.node sv.disk) (hlines : ev.LinesUp sv)
    (harises : ev.Arises sv.node input) :
    Restorable (ev.node sv.node) (ev.disk sv.node sv.disk) := by
  cases harises with
  | none => exact h
  | append | propose => exact h.append hlines _
  | @truncate req held rest entry own hsplit hown hterm =>
    have hcut := h.replace hlines (req.prevLogIndex + 1 + held.length) []
    simp only [List.append_nil] at hcut
    exact hcut
  | replace hsplit hown hterm => exact h.replace hlines _ _
  | install stored _ _ hindex => exact h.saved rfl hindex (Node.adoptSnapshot_log ..) stored
  | @compact index data entry stored hentry =>
    have hle : sv.node.snapshotIndex ≤ (sv.node.snapshotAt index entry data).lastIncludedIndex :=
      Int.le_of_lt (Node.entryAt_eq_some hentry).1
    exact h.saved rfl hle rfl stored

/-- What is kept of a ledger was in it, and below the cut. -/
theorem mem_keepBelow {ledger : List (Int × LogEntry)} {cut : Option Int} {p : Int × LogEntry}
    (h : p ∈ keepBelow ledger cut) : p ∈ ledger ∧ ∀ index, cut = some index → p.1 < index := by
  cases cut with
  | none => exact ⟨h, nofun⟩
  | some index =>
    obtain ⟨hmem, hlt⟩ := List.mem_filter.mp h
    exact ⟨hmem, fun i hi => by cases hi; exact of_decide_eq_true hlt⟩

/-- A step that removes a conflicting entry from disk is seen as a truncation. -/
theorem Server.truncatedFrom_of_conflict (h : Restorable sv.node sv.disk)
    (hbase : sv.disk.logBase = sv.node.snapshotIndex)
    {req : AppendEntriesRequest} {held rest : List LogEntry} {entry own : LogEntry}
    (hsplit : LogEvent.Splits sv.node req held (entry :: rest))
    (hown : sv.node.entryAt (req.prevLogIndex + 1 + held.length) = some own)
    (hterm : own.term ≠ entry.term)
    (hremoved : ∀ k, k = (req.prevLogIndex + 1 + held.length - sv.node.snapshotIndex - 1).toNat →
      sv.disk.log[k]? = some own → after.disk.log[k]? ≠ some own) :
    sv.truncatedFrom after (.receive (.append req)) = some (req.prevLogIndex + 1 + held.length) := by
  have hfirst : sv.node.firstConflict (req.prevLogIndex + 1) req.entries =
      some (req.prevLogIndex + 1 + held.length) := by
    rw [hsplit.entries]
    exact Node.firstConflict_of_holds hsplit.holds hown hterm
  have hstored := (Node.entryAt_eq_some hown).2.2
  rw [h.log, hbase, Int.sub_self, Int.toNat_zero, List.drop_zero] at hstored
  rw [Server.truncatedFrom, hfirst, if_neg]
  exact fun hinitial => hremoved _ rfl hstored (getElem?_of_initial hinitial hstored)

/-- What was acknowledged and not truncated stays where it is. -/
theorem acked_event (h : Restorable sv.node sv.disk) (hlines : ev.LinesUp sv)
    (harises : ev.Arises sv.node input) (hdisk : after.disk.files = (ev.disk sv.node sv.disk).files)
    {acked : List (Int × LogEntry)}
    (hacked : ∀ p ∈ acked, sv.node.snapshotIndex < p.1 → sv.node.entryAt p.1 = some p.2) :
    ∀ p ∈ keepBelow acked (sv.truncatedFrom after input), (ev.node sv.node).snapshotIndex < p.1 →
      (ev.node sv.node).entryAt p.1 = some p.2 := by
  intro p hp hbehind
  obtain ⟨hmem, hcut⟩ := mem_keepBelow hp
  have hfile : after.disk.log = (ev.disk sv.node sv.disk).log := (Prod.mk.inj (Prod.mk.inj hdisk).2).1
  cases harises with
  | none => exact hacked p hmem hbehind
  | append | propose => exact Node.entryAt_extended (n := sv.node) (hacked p hmem hbehind)
  | @truncate req held rest entry own hsplit hown hterm =>
    have htruncated : sv.truncatedFrom after (.receive (.append req)) = _ :=
      Server.truncatedFrom_of_conflict h hlines hsplit hown hterm fun k hk _ => by
        rw [hfile]
        simp only [LogEvent.disk, List.getElem?_take]
        rw [if_neg (by omega)]
        exact fun hnone => by cases hnone
    exact (sv.node.entryAt_cut (Node.entryAt_eq_some hown).1).mpr
      ⟨hacked p hmem hbehind, hcut _ htruncated⟩
  | @replace req held rest entry own hsplit hown hterm =>
    have hlow := (Node.entryAt_eq_some hown).1
    have htruncated : sv.truncatedFrom after (.receive (.append req)) = _ :=
      Server.truncatedFrom_of_conflict h hlines hsplit hown hterm fun k hk hstored => by
        have hlt := (List.getElem?_eq_some_iff.mp hstored).1
        rw [hfile]
        simp only [LogEvent.disk]
        rw [show (max 0 (req.prevLogIndex + 1 + held.length - sv.node.snapshotIndex - 1)).toNat = k by omega,
          List.getElem?_append_right (by rw [List.length_take]; omega), List.length_take,
          Nat.min_eq_left (Nat.le_of_lt hlt), Nat.sub_self]
        exact fun heq => hterm (congrArg LogEntry.term (Option.some.inj heq).symm)
    exact Node.entryAt_extended (n := sv.node.cut (req.prevLogIndex + 1 + held.length))
      ((sv.node.entryAt_cut hlow).mpr ⟨hacked p hmem hbehind, hcut _ htruncated⟩)
  | install stored _ _ hindex =>
    exact (Node.entryAt_drop (n := sv.node) hindex (Node.adoptSnapshot_log ..)).mpr
      ⟨hacked p hmem (Int.lt_of_le_of_lt hindex hbehind), hbehind⟩
  | @compact index data entry stored hentry =>
    have hle : sv.node.snapshotIndex ≤ (sv.node.compactTo (sv.node.snapshotAt index entry data)).snapshotIndex :=
      Int.le_of_lt (Node.entryAt_eq_some hentry).1
    exact (Node.entryAt_drop hle rfl).mpr ⟨hacked p hmem (Int.lt_of_le_of_lt hle hbehind), hbehind⟩

/-- The entries of a request are put at the indices behind its preceding one. -/
theorem mem_puts {req : AppendEntriesRequest} {held rest : List LogEntry} {j : ℕ} {e : LogEntry} {i : Int}
    (hsplit : LogEvent.Splits sv.node req held rest) (hj : rest[j]? = some e)
    (hi : i = req.prevLogIndex + 1 + held.length + j) : (i, e) ∈ sv.puts (.receive (.append req)) := by
  have hget : req.entries[held.length + j]? = some e := by
    rw [hsplit.entries, List.getElem?_append_right (Nat.le_add_right ..), Nat.add_sub_cancel_left, hj]
  refine List.mem_of_getElem? (i := held.length + j) ?_
  simp only [Server.puts, List.getElem?_mapIdx, hget, Option.map_some, hi]
  congr 2
  omega

/-- Every entry stays at an index where it was put. -/
theorem placed_event (harises : ev.Arises sv.node input) {placed : List (Int × LogEntry)}
    (hplaced : ∀ i e, sv.node.entryAt i = some e → (i, e) ∈ placed) :
    ∀ i e, (ev.node sv.node).entryAt i = some e → (i, e) ∈ sv.puts input ++ placed := by
  intro i e he
  rw [List.mem_append]
  cases harises with
  | none => exact Or.inr (hplaced i e he)
  | append hsplit hlast _ =>
    rcases Node.of_entryAt_extended (n := sv.node) he with hold | ⟨j, rfl, hj⟩
    · exact Or.inr (hplaced i e hold)
    · exact Or.inl (mem_puts hsplit hj (by omega))
  | truncate hsplit hown hterm =>
    exact Or.inr (hplaced i e ((sv.node.entryAt_cut (Node.entryAt_eq_some hown).1).mp he).1)
  | @replace req held rest entry own hsplit hown hterm =>
    obtain ⟨hlow, hhigh, _⟩ := Node.entryAt_eq_some hown
    rcases Node.of_entryAt_extended (n := sv.node.cut (req.prevLogIndex + 1 + held.length)) he with
      hold | ⟨j, rfl, hj⟩
    · exact Or.inr (hplaced i e ((sv.node.entryAt_cut hlow).mp hold).1)
    · refine Or.inl (mem_puts hsplit hj ?_)
      simp only [Node.lastLogIndex, Node.cut, List.length_take] at hhigh ⊢
      omega
  | install stored _ _ hindex =>
    exact Or.inr (hplaced i e ((Node.entryAt_drop (n := sv.node) hindex (Node.adoptSnapshot_log ..)).mp he).1)
  | propose hrole =>
    rcases Node.of_entryAt_extended (n := sv.node) he with hold | ⟨j, rfl, hj⟩
    · exact Or.inr (hplaced i e hold)
    · have hlt := (List.getElem?_eq_some_iff.mp hj).1
      obtain rfl : j = 0 := Nat.lt_one_iff.mp hlt
      cases hj
      exact Or.inl (List.mem_singleton.mpr (by rw [Int.natCast_zero, Int.add_zero]))
  | @compact index data entry stored hentry =>
    have hle : sv.node.snapshotIndex ≤ (sv.node.compactTo (sv.node.snapshotAt index entry data)).snapshotIndex :=
      Int.le_of_lt (Node.entryAt_eq_some hentry).1
    exact Or.inr (hplaced i e ((Node.entryAt_drop hle rfl).mp he).1)

/-- A step has led to the log of an event, in memory and on disk, or was interrupted on a disk that shows it. -/
def LogEvent.Ends (ev : LogEvent) (sv after : Server) : Prop :=
  (after.node.snapshotIndex = (ev.node sv.node).snapshotIndex ∧ after.node.log = (ev.node sv.node).log ∧
    after.disk.files = (ev.disk sv.node sv.disk).files) ∨
  ∃ disk, after = sv.reboot disk ∧ disk.files = (ev.disk sv.node sv.disk).files

/-- A section that leads somewhere by its calls, performed by a server. -/
theorem LogEvent.ends_perform {A : Type} {fates : List Fate} {p : Section A}
    {next : A → PersistentState → Server × Effects} {f : A → Node}
    (hp : StorageProgram.Ensures StorageCall.recorded True (LeavesBy sv.node sv.disk input)
      (fun r s => LeadsBy sv.node sv.disk input (f r) s) p (sv.disk, []))
    (hnode : ∀ r disk, (next r disk).1.node = f r) (hdisk : ∀ r disk, (next r disk).1.disk = disk) :
    ∃ ev : LogEvent, ev.Arises sv.node input ∧ ev.ShownBy (p.performed fates) ∧
      ev.Ends sv (sv.perform fates p next).1 := by
  have hjudged := hp.exec fates (Or.inl trivial)
  rw [StorageProgram.exec_recording] at hjudged
  have hshown : ∀ {ev : LogEvent}, ev.ShownBy ((p.performed fates).reverse ++ []) → ev.ShownBy (p.performed fates) :=
    fun h => h.mono (by simp)
  unfold Server.perform Section.run
  generalize p.exec StorageCall.effect fates sv.disk = outcome at hjudged ⊢
  rcases outcome with ⟨a | _ | _, disk⟩
  · obtain ⟨ev, harises, hcalls, hholding, hfiles⟩ := hjudged
    simp only [Node.holding, Prod.mk.injEq] at hholding
    refine ⟨ev, harises, hshown hcalls, Or.inl ⟨?_, ?_, ?_⟩⟩
    · rw [hnode, hholding.1]
    · rw [hnode, hholding.2.2.1]
    · rw [hdisk, hfiles]
  · obtain ⟨ev, harises, hcalls, hfiles⟩ := hjudged
    exact ⟨ev, harises, hshown hcalls, Or.inr ⟨disk, rfl, hfiles⟩⟩
  · obtain ⟨ev, harises, hcalls, hfiles⟩ := hjudged
    exact ⟨ev, harises, hshown hcalls, Or.inr ⟨disk, rfl, hfiles⟩⟩

/-- Every step of a server, completed or interrupted, is one event of its log. -/
theorem Server.Move.event {fresh : ℕ} {fates : List Fate} {result : Server × Effects}
    (hmove : sv.Move fresh fates input result) :
    ∃ ev : LogEvent, ev.Arises sv.node input ∧ ev.ShownBy (sv.performed fresh fates input) ∧
      ev.Ends sv result.1 := by
  -- the events of other inputs write nothing that would have to line up
  have hother : (∀ ev : LogEvent, ev.Arises sv.node input → ev.ShownBy []) →
      ∃ ev : LogEvent, ev.Arises sv.node input ∧ ev.ShownBy (sv.performed fresh fates input) ∧
        ev.Ends sv result.1 := by
    intro hsilent
    cases hmove.logMove with
    | leads hleads =>
      obtain ⟨ev, harises, hnode, hdisk⟩ := hleads
      simp only [Node.holding, Prod.mk.injEq] at hnode
      exact ⟨ev, harises, (hsilent ev harises).mono (List.nil_subset _), Or.inl ⟨hnode.1, hnode.2.2.1, hdisk⟩⟩
    | lost hleaves =>
      obtain ⟨ev, harises, hdisk⟩ := hleaves
      exact ⟨ev, harises, (hsilent ev harises).mono (List.nil_subset _), Or.inr ⟨_, rfl, hdisk⟩⟩
    | wakeApply | drain | sendSnapshot | recordSnapshot | park | pickEntry | sendEntry =>
      exact ⟨.none, .none _, trivial, Or.inl ⟨rfl, rfl, rfl⟩⟩
  cases hmove with
  | receive req =>
    cases req with
    | append req =>
      refine LogEvent.ends_perform (f := Prod.fst) (leadsBy_handleAppendEntries req) ?_ ?_
      · rintro ⟨node, _ | _⟩ disk <;> rfl
      · rintro ⟨node, _ | _⟩ disk <;> rfl
    | vote | install =>
      refine hother fun ev harises => ?_
      cases harises <;> trivial
  | startCommand cmd =>
    exact LogEvent.ends_perform (f := Prod.fst) (leadsBy_startCommand cmd) (fun _ _ => rfl) fun _ _ => rfl
  | _ =>
    refine hother fun ev harises => ?_
    cases harises <;> trivial

/-- A lined-up step that ends with an event has its log, in memory and on disk: a restart restores it. -/
theorem LogEvent.Ends.log (hends : ev.Ends sv after) (h : Restorable (ev.node sv.node) (ev.disk sv.node sv.disk)) :
    after.node.snapshotIndex = (ev.node sv.node).snapshotIndex ∧ after.node.log = (ev.node sv.node).log ∧
      after.disk.files = (ev.disk sv.node sv.disk).files := by
  rcases hends with hlog | ⟨disk, rfl, hfiles⟩
  · exact hlog
  · obtain ⟨hindex, hlog⟩ := (h.keep rfl rfl hfiles).restored sv.node.id sv.node.peers
    exact ⟨hindex, hlog, hfiles⟩

end Steps

/-- The states that allowed runs of an audited server reach. -/
abbrev AuditedReachable (allowed : Server → Drive → Prop) : Audited → Prop :=
  Reachable (fun s => ∃ id peers, s = Audited.first id peers)
    (LabelledStep (fun s drive => allowed s.server drive) Audited.step)

/-- Execute several drives, as long as each is allowed and possible. -/
abbrev Audited.run (allowed : Server → Drive → Prop) [∀ sv drive, Decidable (allowed sv drive)] (s : Audited) :
    List Drive → Option Audited :=
  execute (fun s drive => allowed s.server drive) Audited.step s

/-- What executing drives from the first state computes is computed of a reachable state. -/
theorem exists_auditedReachable_of_execute {allowed : Server → Drive → Prop}
    [∀ sv drive, Decidable (allowed sv drive)] {drives : List Drive} {id : String} {peers : List String}
    {A : Type} {f : Audited → A} {a : A}
    (h : ((Audited.first id peers).run allowed drives).map f = some a) :
    ∃ s, AuditedReachable allowed s ∧ f s = a :=
  exists_reachable_of_execute ⟨id, peers, rfl⟩ h

/-- One lined-up step keeps a server restorable and its ledgers true. -/
theorem Audited.step_durable {s s' : Audited} {drive : Drive} (h : Restorable s.server.node s.server.disk)
    (hdurable : s.Durable) (hlined : LinedUp s.server drive) (hstep : s.step drive = some s') :
    Restorable s'.server.node s'.server.disk ∧ s'.Durable := by
  obtain ⟨⟨after, effects⟩, hserver, rfl⟩ := Option.map_eq_some_iff.mp hstep
  obtain ⟨ev, harises, hshown, hends⟩ := (Server.Move.of_step hserver).event
  have hlines : ev.LinesUp s.server := hlined.event hshown
  obtain ⟨hindex, hlog, hdisk⟩ := hends.log (h.event hlines harises)
  have hentry : ∀ i, after.node.entryAt i = (ev.node s.server.node).entryAt i := fun i => by
    rw [Node.entryAt, Node.entryAt, hindex, hlog]
  refine ⟨(h.event hlines harises).keep hindex hlog hdisk, fun p hp hbehind => ?_, fun i e he => ?_⟩
  · rcases List.mem_append.mp hp with hnew | hold
    · obtain ⟨i, _, hi⟩ := List.mem_filterMap.mp hnew
      obtain ⟨e, he, rfl⟩ := Option.map_eq_some_iff.mp hi
      exact he
    · change after.node.entryAt p.1 = some p.2
      rw [hentry]
      exact acked_event h hlines harises hdisk hdurable.1 p hold (hindex ▸ hbehind)
  · change after.node.entryAt i = some e at he
    rw [hentry] at he
    exact placed_event harises hdurable.2 i e he

/-- **Crash durability.** In runs that write to the log only while it lines up with its stored copy, with
any storage call failing and the process crashing at any of them, what was acknowledged behind the
snapshot and not truncated for a conflict since is where it was after every restart, and no entry
is at an index where it was not put. -/
theorem crash_durability {s : Audited} (run : AuditedReachable LinedUp s) : s.Durable := by
  refine (run.invariant (P := fun s => Restorable s.server.node s.server.disk ∧ s.Durable) ?_ ?_).2
  · rintro s ⟨id, peers, rfl⟩
    have hindex : (newNode id peers .empty).snapshotIndex = 0 := newNode_snapshotIndex ..
    have hlog : (newNode id peers .empty).log = [] := (newNode_log ..).trans List.drop_nil
    refine ⟨⟨hindex, Int.le_of_eq hindex.symm, hlog.trans List.drop_nil.symm⟩, nofun, fun i e he => ?_⟩
    have hget := (Node.entryAt_eq_some he).2.2
    change (newNode id peers .empty).log[_]? = some e at hget
    rw [hlog] at hget
    cases hget
  · rintro s s' _ ⟨h, hdurable⟩ ⟨drive, hlined, hstep⟩
    exact Audited.step_durable h hdurable hlined hstep

/-- A node is compacted by a leader's snapshot with the log replaced on disk, stores an entry behind it,
crashes while it saves the commit index, and has the entry after the restart. -/
theorem crash_durability_after_crash :
    ∃ s, AuditedReachable LinedUp s ∧ s.server.node.snapshotIndex = 3 ∧ (4, commandEntry 4) ∈ s.acked ∧
      s.server.node.entryAt 4 = some (commandEntry 4) := by
  have hrun : ((Audited.first "a" ["a", "b", "c"]).run LinedUp
      [.of (entriesOf 0 0 [commandEntry 1] 0), .of (snapshotOf 3), .of (entriesOf 3 1 [commandEntry 4] 3),
        { fresh := 0, fates := [.crashes], input := entriesOf 4 1 [] 4 }]).map
      (fun s => (s.server.node.snapshotIndex, decide ((4, commandEntry 4) ∈ s.acked))) = some (3, true) := by
    decide +kernel
  obtain ⟨s, hs, hfacts⟩ := exists_auditedReachable_of_execute hrun
  obtain ⟨hindex, hmem⟩ := Prod.mk.inj hfacts
  have hacked := of_decide_eq_true hmem
  exact ⟨s, hs, hindex, hacked, (crash_durability hs).1 _ hacked (by rw [hindex]; decide)⟩

/-- A node crashes between saving a snapshot up to index 3 and replacing its log of one entry. Restarted,
it acknowledges entries 4, 5 and 6; restarted again, it has entry 6 at index 4 and nothing behind
it. -/
theorem crash_durability_fails :
    ∃ s, AuditedReachable (fun _ _ => True) s ∧ s.server.node.snapshotIndex = 3 ∧
      (4, commandEntry 4) ∈ s.acked ∧ s.server.node.entryAt 4 = some (commandEntry 6) ∧
      (6, commandEntry 6) ∈ s.acked ∧ s.server.node.entryAt 6 = none ∧ (4, commandEntry 6) ∉ s.placed ∧
      ¬s.Durable := by
  have hrun : ((Audited.first "a" ["a", "b", "c"]).run (fun _ _ => True)
      [.of (entriesOf 0 0 [commandEntry 1] 0),
        { fresh := 0, fates := [.succeeds, .succeeds, .crashes], input := snapshotOf 3 },
        .of (entriesOf 3 1 [commandEntry 4, commandEntry 5, commandEntry 6] 3), .of .restart]).map
      (fun s => decide (s.server.node.snapshotIndex = 3 ∧ (4, commandEntry 4) ∈ s.acked ∧
        s.server.node.entryAt 4 = some (commandEntry 6) ∧ (6, commandEntry 6) ∈ s.acked ∧
        s.server.node.entryAt 6 = none ∧ (4, commandEntry 6) ∉ s.placed)) = some true := by
    decide +kernel
  obtain ⟨s, hs, hfacts⟩ := exists_auditedReachable_of_execute hrun
  obtain ⟨hindex, hfour, hmoved, hsix, hlost, hnever⟩ := of_decide_eq_true hfacts
  exact ⟨s, hs, hindex, hfour, hmoved, hsix, hlost, hnever, fun hdurable => hnever (hdurable.2 4 _ hmoved)⟩

end ConsensusLab.Raft
