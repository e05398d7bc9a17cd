import ConsensusLab.Foundation.ReplicatedLog.Agreement
import ConsensusLab.Raft.Bookkeeping
import ConsensusLab.Raft.FollowerAnswers
import ConsensusLab.Raft.StateMachineSafety

/-!
# Replication progress

A leader believes of a peer what it infers from answers, and the inference is sound: at
most one call to each peer is outstanding, the match index stays below the next index,
and a peer that has not moved to a later term agrees with the leader up to its match
index. Once a peer has confirmed anything, its next index is right behind its match
index, so it cannot reject any more, and only rejections lower the next index.
-/

namespace ConsensusLab.Raft

open Foundation

/-- The goroutines of a process are for different peers, whose in-flight flags are set. -/
structure Server.Slotted (sv : Server) : Prop where
  distinct : (sv.sends.map Send.peer).Nodup
  flagged : ∀ p ∈ sv.sends.map Send.peer, sv.node.replicateInFlight p = true

/-- What a leader has on record about a peer: nothing confirmed, or confirmed entries right before the
next index. -/
structure Tracks (a : RaftLog) (id : String) (n : Node) (p : String) : Prop where
  nonneg : 0 ≤ n.matchIndex p
  below : n.matchIndex p < n.nextIndex p
  confirmed : n.matchIndex p = 0 ∨
    (n.nextIndex p = n.matchIndex p + 1 ∧ a.Concurs p (a.term id) (n.matchIndex p).toNat)

/-- What a leader's goroutine waits for in the leader's own term. A rejection is on its way only from a
peer that has confirmed nothing. -/
structure Send.Awaits (replies : List (ℕ × Reply)) (n : Node) (send : Send) : Prop where
  append : ∀ req, send.phase = .waitingAppend req → req.term = n.currentTerm →
    req.prevLogIndex + 1 = n.nextIndex send.peer
  rejected : ∀ req resp, send.phase = .waitingAppend req → req.term = n.currentTerm →
    (send.handle, Reply.append resp) ∈ replies → resp.success = false → resp.term ≤ req.term →
    n.matchIndex send.peer = 0
  install : ∀ req, send.phase = .waitingInstall req → req.term = n.currentTerm →
    n.nextIndex send.peer ≤ req.lastIncludedIndex

/-- An answer is as good as the leader takes it to be. -/
def ReplyConcurs (a : RaftLog) (callee : String) : Request → Reply → Prop
  | .append req, .append resp => resp.success = true →
      ∃ t k : ℕ, req.term = t ∧ req.lastIndex = k ∧ a.Concurs callee t k
  | .install req, .install resp => resp.term ≤ req.term →
      ∃ t k : ℕ, req.term = t ∧ req.lastIncludedIndex = k ∧ a.Concurs callee t k
  | _, _ => True

/-- The bookkeeping of all leaders is sound. -/
structure ProgressSound (m : Membership) (c : Cluster) (a : RaftLog) : Prop where
  replies : ∀ handle call reply, c.calls[handle]? = some call → (handle, reply) ∈ c.replies →
    ReplyConcurs a call.callee call.request reply
  slots : ∀ id ∈ m.ids, (c.servers id).Slotted
  leaders : ∀ id ∈ m.ids, (c.servers id).node.role = .leader → ∀ p ∈ m.ids, p ≠ id →
    Tracks a id (c.servers id).node p
  sends : ∀ id ∈ m.ids, (c.servers id).node.role = .leader → ∀ send ∈ (c.servers id).sends,
    send.Awaits c.replies (c.servers id).node

variable {m : Membership} {may : RaftLog → String → ℕ → Prop} {a a' : RaftLog} {id caller : String}
  {n n' : Node} {d : PersistentState} {sv after : Server} {c : Cluster}

section Slots

/-- Every step keeps the goroutines apart: a call is started only for a peer whose flag is not set, and
the flag is reset when the goroutine ends. -/
theorem Server.Slotted.step (h : sv.Slotted) {fresh : ℕ} {input : Input} (hbooks : sv.Books fresh input after) :
    after.Slotted := by
  have hcarried : Carries sv.sends after.sends →
      after.node.replicateInFlight = sv.node.replicateInFlight → after.Slotted := by
    intro hsends hflags
    refine ⟨?_, fun p hp => ?_⟩
    · rw [hsends.peers]
      exact h.distinct
    · rw [hsends.peers] at hp
      rw [hflags]
      exact h.flagged p hp
  cases hbooks with
  | rebooted _ hsends =>
    refine ⟨?_, fun p hp => ?_⟩
    · rw [hsends]
      exact List.nodup_nil
    · rw [hsends] at hp
      cases hp
  | kept hnode hsends => exact hcarried hsends hnode.flags
  | elected _ _ hnode hsends => exact hcarried (hsends ▸ .refl _) (by rw [hnode]; rfl)
  | @started peer phase hidle hnode hsends =>
    have hnew : peer ∉ sv.sends.map Send.peer := by
      intro hp
      rw [h.flagged peer hp] at hidle
      cases hidle
    refine ⟨?_, fun p hp => ?_⟩
    · rw [hsends]
      exact List.nodup_cons.mpr ⟨hnew, h.distinct⟩
    · rw [hsends] at hp
      rw [hnode]
      change Function.update sv.node.replicateInFlight peer true p = true
      rcases List.mem_cons.mp hp with rfl | hold
      · exact Function.update_self ..
      · have hne : p ≠ peer := by
          rintro rfl
          exact hnew hold
        rw [Function.update_of_ne hne]
        exact h.flagged p hold
  | @finished send _ hsend hflags _ hsends =>
    have hsub : after.sends.Sublist sv.sends := hsends ▸ List.filter_sublist
    refine ⟨h.distinct.sublist (hsub.map _), fun p hp => ?_⟩
    obtain ⟨other, hother, rfl⟩ := List.mem_map.mp hp
    have hne : other.peer ≠ send.peer := by
      intro heq
      rw [hsends] at hother
      obtain ⟨hmem, hhandle⟩ := List.mem_filter.mp hother
      rw [List.inj_on_of_nodup_map h.distinct hmem hsend heq] at hhandle
      simp at hhandle
    rw [hflags, Function.update_of_ne hne]
    exact h.flagged _ (List.mem_map_of_mem (hsub.subset hother))
  | rejected _ _ _ _ _ _ hnode hsends => exact hcarried hsends.toCarries (by rw [hnode]; rfl)
  | accepted _ _ _ _ _ _ hnode hsends => exact hcarried hsends.toCarries hnode.flags
  | installed _ _ _ _ _ hnode hsends => exact hcarried hsends.toCarries hnode.flags

/-- What a step without storage faults does to the books of a member. -/
theorem LogRefines.books (h : LogRefines m c a) {fresh : ℕ} {input : Input} {result : Server × Effects}
    (hid : id ∈ m.ids) (hmove : (c.servers id).Move fresh [] input result) :
    (c.servers id).Books fresh input result.1 := by
  refine hmove.books fun hmain hleads => ?_
  have hoffice := (h.servers id hid).main.office hleads
  rw [hmain] at hoffice
  cases hoffice

end Slots

section Answers

/-- The last entry that a request vouches for, seen from the records. -/
theorem AppendBacked.last {req : AppendEntriesRequest} {t p q k : ℕ} (h : AppendBacked a caller req t p q k) :
    req.lastIndex = q ∧ req.lastTerm = lastTerm ((a.leaderLog t).take q) := by
  have hwithin := h.within
  have hlen : ((a.leaderLog t).take q).length = q := List.length_take_of_le hwithin.2
  refine ⟨?_, ?_⟩
  · rw [AppendEntriesRequest.lastIndex, h.prev, h.entries, List.length_map, List.length_drop, hlen]
    omega
  · rw [AppendEntriesRequest.lastTerm, h.entries, List.getLast?_map, List.getLast?_drop, hlen, h.prevTerm]
    by_cases hqp : q ≤ p
    · obtain rfl : p = q := by omega
      rw [if_pos hqp]
      rfl
    · have hne : (a.leaderLog t).take q ≠ [] := List.ne_nil_of_length_pos (by omega)
      have hlast := List.getLast?_eq_some_getLast hne
      have hterm : lastTerm ((a.leaderLog t).take q) = (((a.leaderLog t).take q).getLast hne).term := by
        rw [lastTerm, hlast]
        rfl
      rw [if_neg hqp, hlast, hterm]
      rfl

/-- Whoever has a backed request's last entry in the request's term concurs up to there. -/
theorem LogMirror.concurs_of_reaches (hinv : LogInvariant m.quorums a) (h : LogMirror a id n d)
    {req : AppendEntriesRequest} {t p q k : ℕ} (hback : AppendBacked a caller req t p q k)
    (hterm : n.currentTerm = req.term) (hreaches : n.Reaches req) : a.Concurs id t q := by
  obtain ⟨hlast, hlastTerm⟩ := hback.last
  have hself : a.term id = t := by
    have := h.ballots.term
    have := hback.term
    omega
  have hled : a.Led (a.term id) := by
    rw [hself, LogState.Led, hback.leader]
    exact Option.some_ne_none caller
  subst hself
  rcases hreaches with hcovered | ⟨own, hown, hownTerm⟩
  · rw [hlast, h.logs.window.index] at hcovered
    exact hinv.concurs_of_commit hled ((Int.ofNat_le.mp hcovered).trans (hinv.snap_le id))
  · rw [hlast] at hown
    have hlow := (Node.entryAt_eq_some hown).1
    rw [h.logs.window.index] at hlow
    obtain ⟨j, rfl⟩ : ∃ j, q = j + 1 := ⟨q - 1, by omega⟩
    obtain ⟨u, hu, hown'⟩ := h.logs.window.termAt_of_entryAt hown
    obtain ⟨v, hv⟩ := exists_termAt (show j < (a.leaderLog (a.term id)).length from hback.within.2)
    have huv : (u : Int) = v := by
      rw [← hown', hownTerm, hlastTerm, lastTerm_take_succ hv]
    exact hinv.concurs_of_term hled (by omega) hu (Int.ofNat_inj.mp huv ▸ hv)

/-- Whoever concurs up to the entry before a request's first one does not reject the request. -/
theorem LogMirror.not_prevConflict (h : LogMirror a id n d) {req : AppendEntriesRequest} {t p q k : ℕ}
    (hback : AppendBacked a caller req t p q k) (hterm : n.currentTerm = req.term)
    (hconcurs : a.Concurs id t p) {resp : AppendEntriesResponse} : ¬n.PrevConflict req resp := by
  have hself : a.term id = t := by
    have := h.ballots.term
    have := hback.term
    omega
  have hagree := hconcurs.agree hself
  have hlength : p ≤ (a.log id).length := hagree.symm.le_length hconcurs.within
  have hprevTerm : req.prevLogTerm = lastTerm ((a.log id).take p) := by
    rw [hback.prevTerm, hagree.take_eq]
  intro hconflict
  cases hconflict with
  | missing hmissing =>
    rw [h.logs.window.lastLogIndex, hback.prev] at hmissing
    omega
  | term hown hne =>
    rw [hback.prev] at hown
    have hlow := (Node.entryAt_eq_some hown).1
    rw [h.logs.window.index] at hlow
    obtain ⟨j, rfl⟩ : ∃ j, p = j + 1 := ⟨p - 1, by omega⟩
    obtain ⟨u, hu, hown'⟩ := h.logs.window.termAt_of_entryAt hown
    exact hne (by rw [hown', hprevTerm, lastTerm_take_succ hu])
  | boundary hat hne =>
    rw [hback.prev, h.logs.window.index] at hat
    obtain rfl : p = a.snap id := Int.ofNat_inj.mp hat
    exact hne (hprevTerm.trans h.logs.window.term.symm)

/-- Answers stay good. -/
theorem ReplyConcurs.path {request : Request} {reply : Reply} {callee : String}
    (h : ReplyConcurs a callee request reply) (run : Reachable LogState.First (LogStep m.quorums may) a)
    (path : Relation.ReflTransGen (LogStep m.quorums may) a a') : ReplyConcurs a' callee request reply := by
  cases request <;> cases reply <;> try trivial
  case append.append req resp =>
    intro hsuccess
    obtain ⟨t, k, ht, hk, hconcurs⟩ := h hsuccess
    exact ⟨t, k, ht, hk, hconcurs.path run path⟩
  case install.install req resp =>
    intro hterm
    obtain ⟨t, k, ht, hk, hconcurs⟩ := h hterm
    exact ⟨t, k, ht, hk, hconcurs.path run path⟩

/-- A new answer is good. -/
theorem LogMirror.replyConcurs (hinv : LogInvariant m.quorums a) {fresh : ℕ} {effects : Effects}
    {request : Request} {reply : Reply} (h : LogMirror a id after.node after.disk)
    (hcall : CallBacked a caller request) (hmove : sv.Move fresh [] (.receive request) (after, effects))
    (hreply : effects.reply = some reply) : ReplyConcurs a id request reply := by
  cases request <;> cases reply <;> try trivial
  case append.append req resp =>
    intro hsuccess
    obtain ⟨t, p, q, k, hback⟩ := hcall
    obtain ⟨hterm, hreaches⟩ := (hmove.answersEntries hreply).accepted hsuccess
    exact ⟨t, q, hback.term, hback.last.1, h.concurs_of_reaches hinv hback hterm hreaches⟩
  case install.install req resp =>
    intro hle
    obtain ⟨t, k, hback⟩ := hcall
    obtain ⟨hterm, hcovered⟩ := hmove.answersSnapshot hreply hle
    have hself : a.term id = t := by
      have hown : after.node.currentTerm = a.term id := h.ballots.term
      have := hback.term
      change after.node.currentTerm = req.term at hterm
      omega
    have hled : a.Led (a.term id) := by
      rw [hself, LogState.Led, hback.leader]
      exact Option.some_ne_none caller
    change req.lastIncludedIndex ≤ after.node.snapshotIndex at hcovered
    rw [hback.index, h.logs.window.index] at hcovered
    subst hself
    exact ⟨_, k, hback.term, hback.index,
      hinv.concurs_of_commit hled ((Int.ofNat_le.mp hcovered).trans (hinv.snap_le id))⟩

end Answers

section Bookkeeping

/-- What is on record about a peer stays as good as it was while the leader's entry for it does not
change. -/
theorem Tracks.path {p : String} (h : Tracks a id n p) (hnext : n'.nextIndex p = n.nextIndex p)
    (hmatch : n'.matchIndex p = n.matchIndex p) (hterm : a'.term id = a.term id)
    (run : Reachable LogState.First (LogStep m.quorums may) a)
    (path : Relation.ReflTransGen (LogStep m.quorums may) a a') : Tracks a' id n' p := by
  refine ⟨by rw [hmatch]; exact h.nonneg, by rw [hmatch, hnext]; exact h.below, ?_⟩
  rw [hmatch, hnext, hterm]
  exact h.confirmed.imp_right fun hc => ⟨hc.1, hc.2.path run path⟩

/-- Progress up to an index that the peer concurs with and that is not before the next index. -/
theorem Tracks.recordProgress {p : String} (h : Tracks a id n p) {k : ℕ}
    (hnew : n.nextIndex p ≤ (k : Int) + 1) (hconcurs : a'.Concurs p (a'.term id) k)
    (hnext : n'.nextIndex p = (n.recordProgress p k).nextIndex p)
    (hmatch : n'.matchIndex p = (n.recordProgress p k).matchIndex p) : Tracks a' id n' p := by
  have hbelow := h.below
  have hmatch' : n'.matchIndex p = k := by
    rw [hmatch]
    simp only [Node.recordProgress, Function.update_self]
    omega
  have hnext' : n'.nextIndex p = k + 1 := by
    rw [hnext]
    simp only [Node.recordProgress, Function.update_self]
    omega
  refine ⟨by omega, by omega, Or.inr ⟨by omega, ?_⟩⟩
  rw [hmatch', Int.toNat_natCast]
  exact hconcurs

/-- Backing off from a peer that has confirmed nothing. -/
theorem Tracks.backOff {p : String} {resp : AppendEntriesResponse} (h : Tracks a id n p)
    (hzero : n.matchIndex p = 0) : Tracks a' id (n.backedOff p resp) p := by
  have hbelow := h.below
  have hpositive : 1 ≤ n.backOff p resp := by
    unfold Node.backOff
    simp only
    split_ifs <;> omega
  refine ⟨Int.le_of_eq hzero.symm, ?_, Or.inl hzero⟩
  change n.matchIndex p < Function.update n.nextIndex p (n.backOff p resp) p
  rw [Function.update_self]
  omega

/-- A goroutine past its wait awaits nothing. -/
theorem Send.awaits_of_not_waiting {replies : List (ℕ × Reply)} {send : Send}
    (h : send.phase.waiting = false) : send.Awaits replies n := by
  refine ⟨fun req hphase => ?_, fun req resp hphase => ?_, fun req hphase => ?_⟩ <;>
  · rw [hphase] at h
    cases h

/-- A goroutine whose peer's entry does not change goes on waiting. -/
theorem Send.Awaits.keep {replies : List (ℕ × Reply)} {send : Send} (h : send.Awaits replies n)
    (hterm : n'.currentTerm = n.currentTerm) (hnext : n'.nextIndex send.peer = n.nextIndex send.peer)
    (hmatch : n'.matchIndex send.peer = n.matchIndex send.peer) : send.Awaits replies n' := by
  refine ⟨?_, ?_, ?_⟩
  · rw [hterm, hnext]
    exact h.append
  · rw [hterm, hmatch]
    exact h.rejected
  · rw [hterm, hnext]
    exact h.install

/-- A request for entries starts right before its next index. -/
theorem Node.prevLogIndex_of_appendEntriesRequest {next : Int} {req : AppendEntriesRequest}
    (h : n.appendEntriesRequest next = some req) : req.prevLogIndex = next - 1 := by
  obtain ⟨_, _, hrest⟩ := Option.bind_eq_some_iff.mp h
  obtain ⟨_, _, hdone⟩ := Option.bind_eq_some_iff.mp hrest
  cases hdone
  rfl

/-- Waiting for a call of one's own is waiting for a peer. -/
theorem Wired.peer {send : Send} (h : Wired m c) (hid : id ∈ m.ids) (hsend : send ∈ (c.servers id).sends)
    (hwaiting : send.phase.waiting = true) : send.peer ∈ m.ids ∧ send.peer ≠ id := by
  have hwired := (h.servers id hid).sends send hsend
  cases hphase : send.phase with
  | waitingAppend req =>
    have hcall := h.calls _ (List.mem_of_getElem? (hwired.append req hphase))
    exact ⟨hcall.callee, hcall.distinct⟩
  | waitingInstall req =>
    have hcall := h.calls _ (List.mem_of_getElem? (hwired.install req hphase))
    exact ⟨hcall.callee, hcall.distinct⟩
  | signalling _ | finishing =>
    rw [hphase] at hwaiting
    cases hwaiting

end Bookkeeping

section Steps

variable {act : Action} {input : Input} {served : Option ℕ} {effects : Effects}

/-- No response is on record for a call that has not been started. -/
theorem Wired.not_answered (h : Wired m c) (hsource : Cluster.Source m.ids c act id input served) (reply : Reply) :
    (c.calls.length, reply) ∉ (c.record id input served after effects).replies := by
  intro hreply
  rcases Cluster.mem_record_replies hreply with hold | ⟨rfl, _⟩
  · exact absurd (h.replies _ _ hold) (Nat.lt_irrefl _)
  · obtain ⟨call, hcall, _⟩ := hsource.serves
    exact absurd (List.getElem?_eq_some_iff.mp hcall).1 (Nat.lt_irrefl _)

/-- The goroutines that still wait after one of them was released are for other peers. -/
theorem Releases.other {sends sends' : List Send} {send other : Send} (h : Releases sends send.handle sends')
    (hdistinct : (sends.map Send.peer).Nodup) (hsend : send ∈ sends) (hother : other ∈ sends')
    (hwaiting : other.phase.waiting = true) : other ∈ sends ∧ other.peer ≠ send.peer := by
  have hold : other ∈ sends := by
    refine (h.phases other hother).resolve_right fun hnot => ?_
    rw [hnot] at hwaiting
    cases hwaiting
  refine ⟨hold, fun hpeer => ?_⟩
  have hsame : other = send := List.inj_on_of_nodup_map hdistinct hold hsend hpeer
  rw [h.released other hother (hsame ▸ rfl)] at hwaiting
  cases hwaiting

/-- A candidate has no calls of its term outstanding. -/
theorem LogRefines.no_call_of_term (h : LogRefines m c a) (hinv : LogInvariant m.quorums a) (hid : id ∈ m.ids)
    {poll : Poll} (hmain : (c.servers id).main = .polling poll) (hrole : (c.servers id).node.role = .candidate)
    {t : ℕ} (hleader : a.leader t = some id) : (t : Int) ≠ (c.servers id).node.currentTerm := by
  intro hterm
  have hserver := h.servers id hid
  have hstanding := (hserver.main.campaign hrole poll.request (by rw [hmain]; rfl)).2
  have hself := hserver.log.ballots.term
  obtain rfl : t = a.term id := by omega
  exact hinv.election.not_yet_leader id hstanding hleader

variable (run : Reachable LogState.First (LogStep m.quorums may) a)
  (path : Relation.ReflTransGen (LogStep m.quorums may) a a')

include run path

/-- A new answer to a leader's waiting goroutine is no rejection, unless the peer has confirmed nothing:
a peer that concurs up to its match index has the entry before the request's first one. -/
theorem ProgressSound.answered (h : LogRefines m c a) (hs : ProgressSound m c a)
    (h' : LogRefines m (c.record id input served after effects) a')
    (hsource : Cluster.Source m.ids c act id input served)
    (hmove : (c.servers id).Move c.calls.length [] input (after, effects)) {w : String} (hw : w ∈ m.ids)
    (hrole : (c.servers w).node.role = .leader) {send : Send} (hsend : send ∈ (c.servers w).sends) :
    send.Awaits (c.record id input served after effects).replies (c.servers w).node := by
  have hold := hs.sends w hw hrole send hsend
  refine ⟨hold.append, fun req resp hphase hterm hreply hfailed hle => ?_, hold.install⟩
  rcases Cluster.mem_record_replies hreply with hrecorded | ⟨rfl, hreplied⟩
  · exact hold.rejected req resp hphase hterm hrecorded hfailed hle
  obtain ⟨call, hcall, rfl, rfl⟩ := hsource.serves
  have hown := ((h.wired.servers w hw).sends send hsend).append req hphase
  cases hcall.symm.trans hown
  obtain ⟨hpeer, hne⟩ := h.wired.peer hw hsend (by rw [hphase]; rfl)
  have htracks := hs.leaders w hw hrole send.peer hpeer hne
  -- the peer confirmed something before it served the request
  by_contra hmatched
  obtain ⟨hnext, hconcurs⟩ := htracks.confirmed.resolve_left hmatched
  obtain ⟨hpeerTerm, hconflict⟩ := (hmove.answersEntries hreplied).rejected hfailed hle
  obtain ⟨t, p, q, k, hback⟩ : CallBacked a' w (.append req) :=
    h'.calls _ (List.mem_append_left _ (List.mem_of_getElem? hown))
  have hmirror := (h'.servers send.peer hpeer).log
  rw [Cluster.record_servers_self] at hmirror
  have hleader : a.term w = t := by
    have := (h.servers w hw).log.ballots.term
    have := hback.term
    omega
  have hprev : (c.servers w).node.matchIndex send.peer = p := by
    have := hold.append req hphase hterm
    have := hback.prev
    omega
  rw [hleader, hprev, Int.toNat_natCast] at hconcurs
  exact hmirror.not_prevConflict hback hpeerTerm (hconcurs.path run path) hconflict

/-- Recorded progress of one peer, seen from any peer. -/
theorem Tracks.progressed {p q : String} {k : ℕ} (h : Tracks a id n p) (hother : p ≠ n.id)
    (hterm : a'.term id = a.term id) (hnode : (n.recordProgress q k).KeepsBooks n')
    (hnew : n.nextIndex q ≤ (k : Int) + 1) (hconcurs : a.Concurs q (a.term id) k) : Tracks a' id n' p := by
  obtain ⟨hnext, hmatch⟩ := hnode.progress p hother
  by_cases hpq : p = q
  · subst hpq
    exact h.recordProgress hnew (hterm ▸ hconcurs.path run path) hnext hmatch
  · exact h.path (hnext.trans (Function.update_of_ne hpq ..)) (hmatch.trans (Function.update_of_ne hpq ..))
      hterm run path

/-- The leader that has moved still knows its peers. -/
theorem ProgressSound.leader (h : LogRefines m c a) (hs : ProgressSound m c a)
    (h' : LogRefines m (c.record id input served after effects) a') (hid : id ∈ m.ids)
    (hsource : Cluster.Source m.ids c act id input served)
    (hbooks : (c.servers id).Books c.calls.length input after) (hrole : after.node.role = .leader)
    {p : String} (hp : p ∈ m.ids) (hne : p ≠ id) : Tracks a' id after.node p := by
  have hserver := h.servers id hid
  have hplaced := (h.wired.servers id hid).placed
  have hother : p ≠ (c.servers id).node.id := fun heq => hne (heq.trans hplaced.self)
  have hterm : after.node.currentTerm = (c.servers id).node.currentTerm → a'.term id = a.term id := by
    intro hsame
    have hafter := (h'.servers id hid).log.ballots.term
    rw [Cluster.record_servers_self] at hafter
    have := hserver.log.ballots.term
    omega
  have hkept : ∀ {n' : Node}, (c.servers id).node.KeepsBooks n' → n'.role = .leader →
      n'.currentTerm = after.node.currentTerm → Tracks a' id n' p := by
    intro n' hnode hleads hsame
    obtain ⟨hleads', hterm'⟩ := hnode.office hleads
    obtain ⟨hnext, hmatch⟩ := hnode.progress p hother
    exact (hs.leaders id hid hleads' p hp hne).path hnext hmatch (hterm (hsame.symm.trans hterm')) run path
  cases hbooks with
  | rebooted hnot => exact absurd hrole hnot
  | kept hnode => exact hkept hnode hrole rfl
  | elected _ _ hnode =>
    have hpeer : p = (c.servers id).node.id ∨ p ∈ (c.servers id).node.peers := by
      rw [hplaced.peers]
      exact Or.inr (Membership.mem_peers.mpr ⟨hp, hne⟩)
    have hlast := hserver.log.logs.window.lastLogIndex
    have hmatch : after.node.matchIndex p = 0 := by
      rw [hnode]
      exact if_pos hpeer
    have hnext : after.node.nextIndex p = (c.servers id).node.lastLogIndex + 1 := by
      rw [hnode]
      exact if_pos hpeer
    exact ⟨Int.le_of_eq hmatch.symm, by omega, Or.inl hmatch⟩
  | started _ hnode =>
    rw [hnode] at hrole ⊢
    exact (hs.leaders id hid hrole p hp hne).path rfl rfl (hterm (by rw [hnode]; rfl)) run path
  | finished _ _ _ hnode =>
    have htracks := hkept hnode hrole rfl
    exact ⟨htracks.nonneg, htracks.below, htracks.confirmed⟩
  | @rejected send req resp hinput hsend hphase hleads hterms hfailed hnode =>
    have htracks := hs.leaders id hid hleads p hp hne
    have hreply : (send.handle, Reply.append resp) ∈ c.replies := hsource.answered hinput
    rw [hnode]
    by_cases hpeer : p = send.peer
    · subst hpeer
      exact htracks.backOff
        ((hs.sends id hid hleads send hsend).rejected req resp hphase hterms.1 hreply hfailed hterms.2)
    · exact htracks.path (Function.update_of_ne hpeer ..) rfl (hterm (by rw [hnode]; rfl)) run path
  | @accepted send req resp hinput hsend hphase hleads hterms hsuccess hnode =>
    have hcall := ((h.wired.servers id hid).sends send hsend).append req hphase
    have hreply : (send.handle, Reply.append resp) ∈ c.replies := hsource.answered hinput
    obtain ⟨t, k, ht, hk, hconcurs⟩ := hs.replies _ _ _ hcall hreply hsuccess
    have hself : a.term id = t := by
      have := hserver.log.ballots.term
      omega
    have hstart := (hs.sends id hid hleads send hsend).append req hphase hterms.1
    change req.prevLogIndex + req.entries.length = k at hk
    rw [hk] at hnode
    exact (hs.leaders id hid hleads p hp hne).progressed run path hother (hterm (hnode.office hrole).2) hnode
      (by omega) (hself ▸ hconcurs)
  | @installed send req resp hinput hsend hphase hleads hterms hnode =>
    have hcall := ((h.wired.servers id hid).sends send hsend).install req hphase
    have hreply : (send.handle, Reply.install resp) ∈ c.replies := hsource.answered hinput
    obtain ⟨t, k, ht, hk, hconcurs⟩ := hs.replies _ _ _ hcall hreply hterms.2
    have hself : a.term id = t := by
      have := hserver.log.ballots.term
      omega
    have hstart := (hs.sends id hid hleads send hsend).install req hphase hterms.1
    rw [hk] at hnode
    exact (hs.leaders id hid hleads p hp hne).progressed run path hother (hterm (hnode.office hrole).2) hnode
      (by omega) (hself ▸ hconcurs)

/-- The goroutines of the leader that has moved still wait for what they should. -/
theorem ProgressSound.waiting (hinv : LogInvariant m.quorums a) (h : LogRefines m c a) (hs : ProgressSound m c a)
    (h' : LogRefines m (c.record id input served after effects) a') (hid : id ∈ m.ids)
    (hsource : Cluster.Source m.ids c act id input served)
    (hmove : (c.servers id).Move c.calls.length [] input (after, effects))
    (hbooks : (c.servers id).Books c.calls.length input after) (hrole : after.node.role = .leader)
    {send : Send} (hsend : send ∈ after.sends) :
    send.Awaits (c.record id input served after effects).replies after.node := by
  cases hwaiting : send.phase.waiting with
  | false => exact Send.awaits_of_not_waiting hwaiting
  | true =>
  have hserver := h.servers id hid
  have hplaced := (h.wired.servers id hid).placed
  have hold : (c.servers id).node.role = .leader → ∀ {s : Send}, s ∈ (c.servers id).sends →
      s.Awaits (c.record id input served after effects).replies (c.servers id).node :=
    fun hleads {_} hs' => hs.answered run path h h' hsource hmove hid hleads hs'
  have hkept : ∀ {n' : Node}, (c.servers id).node.KeepsBooks n' → n'.role = .leader →
      send ∈ (c.servers id).sends → send.Awaits (c.record id input served after effects).replies n' := by
    intro n' hnode hleads hmem
    obtain ⟨hleads', hterm⟩ := hnode.office hleads
    obtain ⟨_, hne⟩ := h.wired.peer hid hmem hwaiting
    obtain ⟨hnext, hmatch⟩ := hnode.progress send.peer fun heq => hne (heq.trans hplaced.self)
    exact (hold hleads' hmem).keep hterm hnext hmatch
  have hprogressed : ∀ {q : String} {k : Int},
      ((c.servers id).node.recordProgress q k).KeepsBooks after.node → (c.servers id).node.role = .leader →
      send ∈ (c.servers id).sends → send.peer ≠ q →
      send.Awaits (c.record id input served after effects).replies after.node := by
    intro q k hnode hleads hmem hpeer
    obtain ⟨_, hne⟩ := h.wired.peer hid hmem hwaiting
    obtain ⟨hnext, hmatch⟩ := hnode.progress send.peer fun heq => hne (heq.trans hplaced.self)
    exact (hold hleads hmem).keep (hnode.office hrole).2 (hnext.trans (Function.update_of_ne hpeer ..))
      (hmatch.trans (Function.update_of_ne hpeer ..))
  have hcarried : Carries (c.servers id).sends after.sends → send ∈ (c.servers id).sends := by
    intro hsends
    refine (hsends.phases send hsend).resolve_right fun hnot => ?_
    rw [hnot] at hwaiting
    cases hwaiting
  cases hbooks with
  | rebooted hnot => exact absurd hrole hnot
  | kept hnode hsends => exact hkept hnode hrole (hcarried hsends)
  | elected hmain hcandidate hnode hsends =>
    have hmem : send ∈ (c.servers id).sends := hsends ▸ hsend
    have hwired := (h.wired.servers id hid).sends send hmem
    have hsame : after.node.currentTerm = (c.servers id).node.currentTerm := by rw [hnode]; rfl
    have happend : ∀ req, send.phase = .waitingAppend req → req.term ≠ after.node.currentTerm := by
      intro req hphase
      obtain ⟨t, p, q, k, hback⟩ := h.calls _ (List.mem_of_getElem? (hwired.append req hphase))
      rw [hback.term, hsame]
      exact h.no_call_of_term hinv hid hmain hcandidate hback.leader
    have hinstall : ∀ req, send.phase = .waitingInstall req → req.term ≠ after.node.currentTerm := by
      intro req hphase
      obtain ⟨t, k, hback⟩ := h.calls _ (List.mem_of_getElem? (hwired.install req hphase))
      rw [hback.term, hsame]
      exact h.no_call_of_term hinv hid hmain hcandidate hback.leader
    exact ⟨fun req hphase hterm => absurd hterm (happend req hphase),
      fun req _ hphase hterm => absurd hterm (happend req hphase),
      fun req hphase hterm => absurd hterm (hinstall req hphase)⟩
  | @started peer phase hidle hnode hsends happend hinstall =>
    have hsend' := hsend
    rw [hsends] at hsend
    rw [hnode] at hrole ⊢
    rcases List.mem_cons.mp hsend with rfl | hmem
    · have hwired' : peer ∈ m.ids ∧ peer ≠ id :=
        h'.wired.peer hid (by rw [Cluster.record_servers_self]; exact hsend') hwaiting
      have htracks := hs.leaders id hid hrole peer hwired'.1 hwired'.2
      have hpositive : 1 ≤ (c.servers id).node.nextIndex peer := by
        have := htracks.nonneg
        have := htracks.below
        omega
      refine ⟨fun req hphase _ => ?_, fun req resp _ _ hreply => ?_, fun req hphase _ => ?_⟩
      · rw [Node.prevLogIndex_of_appendEntriesRequest (happend req hphase)]
        change max 1 ((c.servers id).node.nextIndex peer) - 1 + 1 = (c.servers id).node.nextIndex peer
        omega
      · exact absurd hreply (h.wired.not_answered hsource _)
      · obtain ⟨hneed, snap, hsnap, rfl⟩ := hinstall req hphase
        exact Int.le_trans hneed (Int.le_of_eq (hserver.log.logs.snapshot snap hsnap).1.symm)
    · exact (hold hrole hmem).keep rfl rfl rfl
  | finished _ _ _ hnode hsends =>
    have hmem : send ∈ (c.servers id).sends := (hsends ▸ List.filter_sublist).subset hsend
    have hawaits := hkept hnode hrole hmem
    exact ⟨hawaits.append, hawaits.rejected, hawaits.install⟩
  | rejected hinput hsend' hphase hleads hterms hfailed hnode hsends =>
    obtain ⟨hmem, hpeer⟩ := hsends.other (hs.slots id hid).distinct hsend' hsend hwaiting
    rw [hnode]
    exact (hold hleads hmem).keep rfl (Function.update_of_ne hpeer ..) rfl
  | accepted hinput hsend' hphase hleads hterms hsuccess hnode hsends =>
    obtain ⟨hmem, hpeer⟩ := hsends.other (hs.slots id hid).distinct hsend' hsend hwaiting
    exact hprogressed hnode hleads hmem hpeer
  | installed hinput hsend' hphase hleads hterms hnode hsends =>
    obtain ⟨hmem, hpeer⟩ := hsends.other (hs.slots id hid).distinct hsend' hsend hwaiting
    exact hprogressed hnode hleads hmem hpeer

/-- Every undisturbed step keeps the bookkeeping sound. -/
theorem ProgressSound.step {c' : Cluster} (h : LogRefines m c a) (hs : ProgressSound m c a)
    (h' : LogRefines m c' a') (hcalm : Undisturbed c act) (hstep : c.step m.ids act = some c') :
    ProgressSound m c' a' := by
  have hinv := logInvariant_of_reachable run
  have hinv' := logInvariant_of_reachable (run.trans path)
  obtain ⟨id, input, served, after, effects, hsource, hmove, rfl⟩ := Cluster.step_cases hstep
  have hid := (h.wired.source hsource).1
  rw [hcalm.1] at hmove
  have hbooks := h.books hid hmove
  refine ⟨fun handle call reply hcall hreply => ?_, fun w hw => ?_, fun w hw hrole p hp hne => ?_,
    fun w hw hrole send hsend => ?_⟩
  · rcases Cluster.mem_record_replies hreply with hold | ⟨rfl, hreplied⟩
    · have hcall' := h.wired.answered hold (List.prefix_append ..) hcall
      exact (hs.replies handle call reply hcall' hold).path run path
    · obtain ⟨call₀, hcall₀, rfl, rfl⟩ := hsource.serves
      cases (getElem?_of_initial (List.prefix_append ..) hcall₀).symm.trans hcall
      have hmirror := (h'.servers _ hid).log
      rw [Cluster.record_servers_self] at hmirror
      exact hmirror.replyConcurs hinv' (h'.calls _ (List.mem_of_getElem? hcall)) hmove hreplied
  · by_cases heq : w = id
    · subst heq
      rw [Cluster.record_servers_self]
      exact (hs.slots w hw).step hbooks
    · rw [Cluster.record_servers_of_ne _ _ _ _ _ heq]
      exact hs.slots w hw
  · by_cases heq : w = id
    · subst heq
      rw [Cluster.record_servers_self] at hrole ⊢
      exact hs.leader run path h h' hid hsource hbooks hrole hp hne
    · have hterm' := (h'.servers w hw).log.ballots.term
      rw [Cluster.record_servers_of_ne _ _ _ _ _ heq] at hrole hterm' ⊢
      have hterm := (h.servers w hw).log.ballots.term
      exact (hs.leaders w hw hrole p hp hne).path rfl rfl (by omega) run path
  · by_cases heq : w = id
    · subst heq
      rw [Cluster.record_servers_self] at hrole hsend ⊢
      exact hs.waiting run path hinv h h' hid hsource hmove hbooks hrole hsend
    · rw [Cluster.record_servers_of_ne _ _ _ _ _ heq] at hrole hsend ⊢
      exact hs.answered run path h h' hsource hmove hw hrole hsend

end Steps

/-- The bookkeeping of a new cluster. -/
theorem progressSound_first (m : Membership) : ProgressSound m (Cluster.first m.ids) firstLog where
  replies handle call reply hcall := by cases hcall
  slots id _ := ⟨List.nodup_nil, nofun⟩
  leaders id _ hrole := by
    change (newNode id m.ids .empty).role = .leader at hrole
    rw [newNode_role] at hrole
    cases hrole
  sends id _ _ send hsend := by cases hsend

/-- The bookkeeping is sound in every undisturbed run. -/
theorem progressSound_of_undisturbed (run : ClusterReachable m Undisturbed c) :
    ∃ a, Reachable LogState.First (LogStep m.quorums fun _ _ _ => True) a ∧ LogRefines m c a ∧
      ProgressSound m c a := by
  refine Reachable.simulate (R := fun c a => LogRefines m c a ∧ ProgressSound m c a) ?_ ?_ run
  · rintro c rfl
    exact ⟨firstLog, firstLog_first, logRefines_first m, progressSound_first m⟩
  · rintro c c' a hrun ⟨h, hs⟩ ⟨act, hcalm, hstep⟩
    obtain ⟨a', path, h'⟩ := h.step (logInvariant_of_reachable hrun) hcalm (installsPermitted_true m c act) hstep
    exact ⟨a', path, h', hs.step hrun path h h' hcalm hstep⟩

/-- An AppendEntries or InstallSnapshot call of a node to a peer whose response the node's goroutine
waits for. -/
def Cluster.Outstanding (c : Cluster) (id peer : String) (handle : ℕ) : Prop :=
  (∃ req, c.calls[handle]? = some { caller := id, callee := peer, request := req }) ∧
    ∃ send ∈ (c.servers id).sends, send.handle = handle ∧ send.phase.waiting = true

/-- A list of which the committed entries of all nodes are initial parts; snapshots cover only
committed entries. -/
structure Cluster.Committed (m : Membership) (c : Cluster) (committed : List LogEntry) : Prop where
  snapshots : ∀ id ∈ m.ids, (c.servers id).node.snapshotIndex ≤ (c.servers id).node.commitIndex
  reached : ∀ id ∈ m.ids, (c.servers id).node.commitIndex ≤ committed.length
  entries : ∀ id ∈ m.ids, ∀ i e, (c.servers id).node.entryAt i = some e →
    i ≤ (c.servers id).node.commitIndex → committed[(i - 1).toNat]? = some e

/-- The entry of a node at an index; what its snapshot covers are the committed entries. -/
def Node.recalls (n : Node) (committed : List LogEntry) (i : Int) : Option LogEntry :=
  if i ≤ n.snapshotIndex then committed[(i - 1).toNat]? else n.entryAt i

/-- What a leader has on record about a peer is true of the peer. -/
structure Cluster.ReplicatesSoundly (c : Cluster) (committed : List LogEntry) (id p : String) : Prop where
  single : ∀ handle handle', c.Outstanding id p handle → c.Outstanding id p handle' → handle = handle'
  bounds : 0 ≤ (c.servers id).node.matchIndex p ∧
    (c.servers id).node.matchIndex p < (c.servers id).node.nextIndex p ∧
    (c.servers id).node.nextIndex p ≤ (c.servers id).node.lastLogIndex + 1
  agrees : (c.servers p).node.currentTerm ≤ (c.servers id).node.currentTerm →
    ∀ i, 1 ≤ i → i ≤ (c.servers id).node.matchIndex p →
      ∃ e, (c.servers id).node.recalls committed i = some e ∧ (c.servers p).node.recalls committed i = some e

/-- What a node recalls is its part of the replicated log. -/
theorem Logs.recalls (h : Logs a id n) (hinv : LogInvariant m.quorums a) {l : List Entry}
    (hl : a.CommittedLog l) (j : ℕ) : n.recalls (l.map Entry.kept) (j + 1) = (a.log id)[j]?.map Entry.kept := by
  unfold Node.recalls
  rw [h.window.index]
  split
  · have hj : j < a.commit id := by
      have := hinv.snap_le id
      omega
    rw [show ((j : Int) + 1 - 1).toNat = j by omega, List.getElem?_map, (hl.participants id).2 j hj]
  · exact h.window.entryAt (by omega)

/-- The committed log of the protocol is the committed log of the cluster. -/
theorem LogRefines.committed (h : LogRefines m c a) (hinv : LogInvariant m.quorums a) {l : List Entry}
    (hl : a.CommittedLog l) : c.Committed m (l.map Entry.kept) where
  snapshots id hid := by
    have hlogs := (h.servers id hid).log.logs
    have := hinv.snap_le id
    rw [hlogs.window.index, hlogs.commit]
    omega
  reached id hid := by
    have := (hl.participants id).1
    rw [(h.servers id hid).log.logs.commit, List.length_map]
    omega
  entries id hid i e he hi := by
    have hlogs := (h.servers id hid).log.logs
    obtain ⟨j, whole, rfl, _, hwhole, rfl⟩ := hlogs.window.of_entryAt he
    rw [hlogs.commit] at hi
    rw [show ((j : Int) + 1 - 1).toNat = j by omega, List.getElem?_map,
      ← (hl.participants id).2 j (by omega), hwhole]
    rfl

/-- Calls that goroutines for one peer wait for are one call. -/
theorem LogRefines.outstanding_unique (h : LogRefines m c a) (hs : ProgressSound m c a) (hid : id ∈ m.ids)
    {p : String} {handle handle' : ℕ} (ho : c.Outstanding id p handle) (ho' : c.Outstanding id p handle') :
    handle = handle' := by
  have hpeer : ∀ {handle}, c.Outstanding id p handle →
      ∃ send ∈ (c.servers id).sends, send.handle = handle ∧ send.peer = p := by
    rintro _ ⟨⟨req, hcall⟩, send, hsend, rfl, hwaiting⟩
    have hwired := (h.wired.servers id hid).sends send hsend
    refine ⟨send, hsend, rfl, ?_⟩
    cases hphase : send.phase with
    | waitingAppend r =>
      cases (hwired.append r hphase).symm.trans hcall
      rfl
    | waitingInstall r =>
      cases (hwired.install r hphase).symm.trans hcall
      rfl
    | signalling _ | finishing =>
      rw [hphase] at hwaiting
      cases hwaiting
  obtain ⟨send, hsend, rfl, hp⟩ := hpeer ho
  obtain ⟨send', hsend', rfl, hp'⟩ := hpeer ho'
  rw [List.inj_on_of_nodup_map (hs.slots id hid).distinct hsend hsend' (hp.trans hp'.symm)]

/-- **Replication progress is sound.** In every undisturbed run, for every leader and every peer, at most
one call is outstanding, the indices are in order, and a peer that is in no later term agrees with the
leader up to its match index. -/
theorem replication_progress_sound (run : ClusterReachable m Undisturbed c) :
    ∃ committed, c.Committed m committed ∧ ∀ id ∈ m.ids, (c.servers id).node.role = .leader →
      ∀ p ∈ m.ids, p ≠ id → c.ReplicatesSoundly committed id p := by
  obtain ⟨a, arun, h, hs⟩ := progressSound_of_undisturbed run
  have hinv := logInvariant_of_reachable arun
  obtain ⟨l, hl⟩ := exists_committedLog arun
  refine ⟨l.map Entry.kept, h.committed hinv hl, fun id hid hrole p hp hne => ?_⟩
  have hleader := (h.servers id hid).log
  have hpeer := (h.servers p hp).log
  have hpresides := hleader.leader hrole
  have htracks := hs.leaders id hid hrole p hp hne
  refine ⟨fun _ _ => h.outstanding_unique hs hid, ⟨htracks.nonneg, htracks.below, hpresides.next p ?_⟩,
    fun hterm i hlow hhigh => ?_⟩
  · rw [(h.wired.servers id hid).placed.peers]
    exact Membership.mem_peers.mpr ⟨hp, hne⟩
  · obtain ⟨_, hconcurs⟩ := htracks.confirmed.resolve_left (by omega)
    rw [hleader.ballots.term, hpeer.ballots.term] at hterm
    have hsame : a.term p = a.term id := le_antisymm (Int.ofNat_le.mp hterm) hconcurs.reached
    obtain ⟨j, rfl⟩ : ∃ j : ℕ, i = j + 1 := ⟨(i - 1).toNat, by omega⟩
    have hj : j < ((c.servers id).node.matchIndex p).toNat := by omega
    rw [hleader.logs.recalls hinv hl, hpeer.logs.recalls hinv hl, hconcurs.agree hsame j hj,
      hinv.office_log id hpresides.standing, List.getElem?_eq_getElem (hj.trans_le hconcurs.within)]
    exact ⟨_, rfl, rfl⟩

/-- After node `a` has replicated a command, `b` is on record with it and has it. -/
theorem replication_progress_sound_after_command :
    ∃ c, ClusterReachable threeNodes Undisturbed c ∧ (c.servers "a").node.role = .leader ∧
      (c.servers "a").node.matchIndex "b" = 1 ∧
      ∃ committed, c.Committed threeNodes committed ∧ c.ReplicatesSoundly committed "a" "b" := by
  have hrun : ((Cluster.first threeNodes.ids).run threeNodes Undisturbed commandDelivered).map
      (fun c => ((c.servers "a").node.role, (c.servers "a").node.matchIndex "b")) = some (.leader, 1) := by
    decide +kernel
  obtain ⟨c, hc, hfacts⟩ := exists_reachable_of_run hrun
  obtain ⟨hrole, hmatch⟩ := Prod.mk.inj hfacts
  obtain ⟨committed, hcommitted, hsound⟩ := replication_progress_sound hc
  exact ⟨c, hc, hrole, hmatch, committed, hcommitted, hsound "a" (by decide) hrole "b" (by decide) (by decide)⟩

end ConsensusLab.Raft
