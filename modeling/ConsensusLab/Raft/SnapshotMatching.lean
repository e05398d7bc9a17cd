import ConsensusLab.Raft.StateMachineSafety
import ConsensusLab.Foundation.ReplicatedLog.LogMatching

/-!
# Log matching with snapshots

A node's log is read as the snapshot boundary followed by the entries. Installing a
snapshot keeps every entry behind it whatever term the node had at the boundary, so a
deposed leader can end up with a boundary of a later term than the entries after it.
Where every installed snapshot continues the log it is installed over, logs match.
-/

namespace ConsensusLab.Raft

open Foundation

/-- The term that a node's log represents at an index, as the snapshot boundary or by an entry. -/
def Node.represented (n : Node) (i : Int) : Option Int :=
  if i = n.snapshotIndex then some n.snapshotTerm else (n.entryAt i).map LogEntry.term

/-- Terms do not decrease along a node's log. -/
def Node.TermsSorted (n : Node) : Prop :=
  ∀ i j t u, i ≤ j → n.represented i = some t → n.represented j = some u → t ≤ u

/-- Below an index at which two nodes hold the same term, they hold the same terms and commands. -/
def Node.LogMatches (n n' : Node) : Prop :=
  ∀ i t, n.represented i = some t → n'.represented i = some t → ∀ j < i,
    (∀ u u', n.represented j = some u → n'.represented j = some u' → u = u') ∧
    ∀ e e', n.entryAt j = some e → n'.entryAt j = some e' → e.command = e'.command

/-- Log matching in a cluster. -/
def Cluster.LogMatching (m : Membership) (c : Cluster) : Prop :=
  (∀ v ∈ m.ids, (c.servers v).node.TermsSorted) ∧
    ∀ v ∈ m.ids, ∀ w ∈ m.ids, (c.servers v).node.LogMatches (c.servers w).node

/-- A snapshot continues a node's log: it is not installed, nothing is kept behind it, or the node has
its term at its index. -/
def Node.Continues (n : Node) (req : InstallSnapshotRequest) : Prop :=
  req.term < n.currentTerm ∨ req.lastIncludedIndex < n.snapshotIndex ∨
    n.lastLogIndex ≤ req.lastIncludedIndex ∨
    n.represented req.lastIncludedIndex = some req.lastIncludedTerm

instance (n : Node) (req : InstallSnapshotRequest) : Decidable (n.Continues req) :=
  inferInstanceAs (Decidable (_ ∨ _ ∨ _ ∨ _))

/-- The snapshot that an action delivers, with the node it is delivered to. -/
def Cluster.installing (c : Cluster) : Action → Option (Node × InstallSnapshotRequest)
  | .deliver handle _ =>
    match c.calls[handle]? with
    | some { callee, request := .install req, .. } => some ((c.servers callee).node, req)
    | _ => none
  | _ => none

/-- An undisturbed step in which a delivered snapshot continues the log it is installed over. -/
def Continuing (c : Cluster) (act : Action) : Prop :=
  Undisturbed c act ∧ ∀ p ∈ c.installing act, p.1.Continues p.2

instance (c : Cluster) (act : Action) : Decidable (Continuing c act) :=
  inferInstanceAs (Decidable (_ ∧ _))

section Windows

variable {n n' : Node} {l l' : List Entry} {k k' : ℕ}

/-- Cut to any of its positions, a log ends in the term at the position before. -/
theorem termAt_of_take {p : ℕ} (hp : 0 < p) (hlen : p ≤ l.length) :
    termAt l (p - 1) = some (lastTerm (l.take p)) := by
  have htake : (l.take p).length = p := List.length_take_of_le hlen
  have hlast := termAt_last (l := l.take p) (by omega)
  rw [htake] at hlast
  rw [← hlast]
  exact (termAt_congr (agreeBelow_take (Nat.le_refl p) (p - 1) (by omega))).symm

/-- What a node represents at an index is the last term of the whole log up to it. -/
theorem Node.Windows.of_represented (h : n.Windows l k) {i t : Int} (hi : n.represented i = some t) :
    ∃ p : ℕ, i = p ∧ p ≤ l.length ∧ t = lastTerm (l.take p) := by
  unfold Node.represented at hi
  split at hi
  · cases hi
    exact ⟨k, by rw [‹i = _›, h.index], h.covered, h.term⟩
  · obtain ⟨e, he, rfl⟩ := Option.map_eq_some_iff.mp hi
    obtain ⟨j, whole, rfl, _, hwhole, rfl⟩ := h.of_entryAt he
    have hlt : j < l.length := (List.getElem?_eq_some_iff.mp hwhole).1
    have hlast : termAt l j = some (lastTerm (l.take (j + 1))) := termAt_of_take (Nat.succ_pos j) hlt
    rw [termAt, hwhole] at hlast
    exact ⟨j + 1, by omega, hlt, congrArg Nat.cast (Option.some.inj hlast)⟩

/-- Terms do not decrease along a log that follows the leaders. -/
theorem Node.Windows.sorted {a : RaftLog} {bound : ℕ} (h : n.Windows l k) (hl : a.Follows 0 bound l)
    (hleader : ∀ t, a.Led t → a.Follows 0 t (a.leaderLog t)) : n.TermsSorted := by
  intro i j t u hij hi hj
  obtain ⟨p, rfl, hp, rfl⟩ := h.of_represented hi
  obtain ⟨q, rfl, hq, rfl⟩ := h.of_represented hj
  rcases Nat.eq_zero_or_pos p with rfl | hpos
  · exact Int.natCast_nonneg _
  · exact Int.ofNat_le.mpr (hl.sorted hleader (Nat.zero_le _) (termAt_of_take hpos hp)
      (termAt_of_take (by omega) hq) (by omega))

/-- Two logs that follow the leaders match. -/
theorem Node.Windows.matches {a : RaftLog} {bound bound' : ℕ} (h : n.Windows l k) (h' : n'.Windows l' k')
    (hl : a.Follows 0 bound l) (hl' : a.Follows 0 bound' l') : n.LogMatches n' := by
  intro i t hi hi' j hji
  obtain ⟨p, rfl, hp, rfl⟩ := h.of_represented hi
  obtain ⟨p', hpp, hp', hterm⟩ := h'.of_represented hi'
  obtain rfl : p = p' := Int.ofNat_inj.mp hpp
  have hagree : 0 < p → AgreeBelow p l l' := by
    intro hpos
    have hlast := termAt_of_take hpos hp'
    rw [← Int.ofNat_inj.mp hterm] at hlast
    exact (hl.agree hl' (termAt_of_take hpos hp) hlast).mono (by omega)
  refine ⟨fun u u' hu hu' => ?_, fun e e' he he' => ?_⟩
  · obtain ⟨q, rfl, _, rfl⟩ := h.of_represented hu
    obtain ⟨q', hqq, _, rfl⟩ := h'.of_represented hu'
    obtain rfl : q = q' := Int.ofNat_inj.mp hqq
    rw [((hagree (by omega)).mono (by omega : q ≤ p)).take_eq]
  · obtain ⟨q, whole, rfl, _, hwhole, rfl⟩ := h.of_entryAt he
    obtain ⟨q', whole', hqq, _, hwhole', rfl⟩ := h'.of_entryAt he'
    obtain rfl : q = q' := by omega
    have hsame := hagree (by omega) q (by omega)
    rw [hwhole, hwhole'] at hsame
    rw [Option.some.inj hsame]

end Windows

variable {m : Membership} {c : Cluster}

/-- A snapshot that continues a node's log is a clean installation in the replicated log. -/
theorem permitted_of_continues {id caller : String} {n : Node} {req : InstallSnapshotRequest}
    (hcontinues : n.Continues req) : Permitted CleanInstall id caller n req := by
  intro a n' d t k hhistory hmirror hback hself hterm hsnap hleader
  simp only [Node.history, Prod.mk.injEq] at hhistory
  have hwindow : n.Windows (a.log id) (a.snap id) :=
    hmirror.logs.window.keep hhistory.1.symm hhistory.2.1.symm hhistory.2.2.1.symm
  have hindex := hback.index
  rcases hcontinues with hstale | hbelow | hbehind | hterms
  · omega
  · rw [hwindow.index] at hbelow
    omega
  · rw [hwindow.lastLogIndex] at hbehind
    exact Or.inr (Or.inl (by omega))
  · obtain ⟨p, hp, hlen, hlast⟩ := hwindow.of_represented hterms
    obtain rfl : k = p := by omega
    rcases Nat.eq_zero_or_pos k with hzero | hpos
    · exact Or.inl hzero
    · refine Or.inr (Or.inr ?_)
      subst hself
      rw [termAt_of_take hpos hlen, termAt_of_take hpos hleader]
      exact congrArg some (Int.ofNat_inj.mp (hlast.symm.trans hback.lastTerm))

/-- **Log matching.** In runs whose installed snapshots continue the logs they are installed over, logs
match in every state. -/
theorem log_matching_of_continuing (run : ClusterReachable m Continuing c) : c.LogMatching m := by
  have hinstalls : ∀ c act, Continuing c act → InstallsPermitted m CleanInstall c act := by
    rintro c act hact handle fates ⟨caller, callee, _⟩ req rfl hcall rfl _
    refine permitted_of_continues (hact.2 ((c.servers callee).node, req) ?_)
    simp only [Cluster.installing, hcall, Option.mem_def]
  obtain ⟨a, hrun, h⟩ := logRefines_of_reachable (fun _ _ hact => hact.1) hinstalls run
  have hinv := logInvariant_of_reachable hrun
  have hmatched := matched_of_reachable hrun
  have hwindow : ∀ v ∈ m.ids, (c.servers v).node.Windows (a.log v) (a.snap v) :=
    fun v hv => (h.servers v hv).log.logs.window
  exact ⟨fun v hv => (hwindow v hv).sorted (hmatched v) hinv.leader_follows,
    fun v hv w hw => (hwindow v hv).matches (hwindow w hw) (hmatched v) (hmatched w)⟩

/-- Node `c`, which has nothing yet, receives a snapshot of the first command. -/
theorem log_matching_of_continuing_first_snapshot :
    ∃ c, ClusterReachable threeNodes Continuing c ∧ (c.servers "c").node.snapshotIndex = 1 ∧
      c.LogMatching threeNodes := by
  have hrun : ((Cluster.first threeNodes.ids).run threeNodes Continuing
      (electionOf "a" 0 1 ++ [.act "a" (.startCommand [7]) [], .act "a" (.startRound true) []] ++
        replicationOf "a" "b" 2 1 ++ applicationBy "a" ++
        [.act "a" (.takeSnapshot 1 []) [], .act "a" (.visit "c") [], .deliver 3 []])).map
      (fun c => (c.servers "c").node.snapshotIndex) = some 1 := by
    decide +kernel
  obtain ⟨c, hc, hsnap⟩ := exists_reachable_of_run hrun
  exact ⟨c, hc, hsnap, log_matching_of_continuing hc⟩

/-- Node `a` leads term 1 and adds two commands that nobody receives; `b` wins term 2, commits and
compacts a command of its own, and sends its snapshot to `a`. -/
def staleSuffixKept : List Action :=
  electionOf "a" 0 1 ++ [.act "a" (.startCommand [1]) [], .act "a" (.startCommand [2]) []] ++
    electionOf "b" 3 2 ++ [.act "b" (.startCommand [3]) [], .act "b" (.startRound true) []] ++
    replicationOf "b" "c" 4 2 ++ applicationBy "b" ++
    [.act "b" (.takeSnapshot 1 []) [], .act "b" (.visit "a") [], .deliver 5 []]

/-- Installing a snapshot keeps a conflicting suffix: node `a` then holds term 2 at index 1, as the
snapshot boundary, and term 1 at index 2. -/
theorem log_matching_fails : ∃ c, ClusterReachable threeNodes Undisturbed c ∧
    (c.servers "a").node.represented 1 = some 2 ∧ (c.servers "a").node.represented 2 = some 1 ∧
    ¬c.LogMatching threeNodes := by
  have hrun : ((Cluster.first threeNodes.ids).run threeNodes Undisturbed staleSuffixKept).map
      (fun c => ((c.servers "a").node.represented 1, (c.servers "a").node.represented 2)) =
      some (some 2, some 1) := by
    decide +kernel
  obtain ⟨c, hc, hfacts⟩ := exists_reachable_of_run hrun
  obtain ⟨hboundary, hentry⟩ := Prod.mk.inj hfacts
  refine ⟨c, hc, hboundary, hentry, fun hmatching => ?_⟩
  have hle := hmatching.1 "a" (by decide) 1 2 2 1 (by decide) hboundary hentry
  exact absurd hle (by decide)

end ConsensusLab.Raft
