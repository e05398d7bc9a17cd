import ConsensusLab.Raft.ReplicationRules
import ConsensusLab.Foundation.Rank
import Mathlib.Order.Bounds.Basic

/-!
# The commit rule

`advanceCommitIndexLocked` walks down from the end of the log. It stops at the last
index that is new, of the leader's own term, and held by a quorum. In a log whose terms
do not decrease, the walk is the same as sorting the match positions and looking at the
entry where the quorum's last member stands.
-/

namespace ConsensusLab.Raft

open Foundation

namespace Node

/-- The configuration consists of the node and its peers. -/
structure KnowsCluster (n : Node) : Prop where
  config : n.config.members.Perm (n.id :: n.peers)
  self : n.id ∉ n.peers

instance (n : Node) : Decidable n.KnowsCluster :=
  decidable_of_iff (n.config.members.Perm (n.id :: n.peers) ∧ n.id ∉ n.peers)
    ⟨fun h => ⟨h.1, h.2⟩, fun h => ⟨h.1, h.2⟩⟩

/-- The members that hold the log up to an index as far as the leader knows. It holds all of it itself. -/
def holders (n : Node) (index : Int) : List String :=
  n.config.members.filter fun p => p = n.id ∨ index ≤ n.matchIndex p

/-- The Raft rule for the next commit index. -/
structure MayCommit (n : Node) (index : Int) : Prop where
  fresh : n.commitIndex < index
  logged : index ≤ n.lastLogIndex
  own : (n.entryAt index).map LogEntry.term = some n.currentTerm
  quorum : n.quorumSize ≤ (n.holders index).length

/-- The positions up to which the members are known to hold the log. -/
def matchPositions (n : Node) : List Int :=
  n.lastLogIndex :: n.peers.map n.matchIndex

/-- The commit index that the quorum's position in the order of all positions gives. -/
def commitByRank (n : Node) : Option Int :=
  (nthLargest n.quorumSize n.matchPositions).filter fun m =>
    n.commitIndex < m ∧ (n.entryAt m).map LogEntry.term = some n.currentTerm

/-- Terms do not decrease along the log and do not exceed the node's, and no peer is thought to be ahead
of the log. -/
structure Orderly (n : Node) : Prop where
  ascending : n.log.Pairwise (fun e e' => e.term ≤ e'.term)
  current : ∀ e ∈ n.log, e.term ≤ n.currentTerm
  matched : ∀ p ∈ n.peers, n.matchIndex p ≤ n.lastLogIndex

instance (n : Node) : Decidable n.Orderly :=
  decidable_of_iff (n.log.Pairwise (fun e e' => e.term ≤ e'.term) ∧ (∀ e ∈ n.log, e.term ≤ n.currentTerm) ∧
      ∀ p ∈ n.peers, n.matchIndex p ≤ n.lastLogIndex)
    ⟨fun h => ⟨h.1, h.2.1, h.2.2⟩, fun h => ⟨h.ascending, h.current, h.matched⟩⟩

variable {n : Node} {i m : Int}

/-- The holders are the node itself and the peers that the loop counts. -/
theorem KnowsCluster.holders_length (h : n.KnowsCluster) (i : Int) :
    (n.holders i).length = 1 + (n.peers.filter (fun p => n.matchIndex p ≥ i)).length := by
  have hpeers : n.peers.filter (fun p => p = n.id ∨ i ≤ n.matchIndex p) =
      n.peers.filter (fun p => n.matchIndex p ≥ i) := by
    apply List.filter_congr
    intro p hp
    have hne : p ≠ n.id := fun heq => h.self (heq ▸ hp)
    simp [hne]
  have hself : (n.id :: n.peers).filter (fun p => p = n.id ∨ i ≤ n.matchIndex p) =
      n.id :: n.peers.filter (fun p => n.matchIndex p ≥ i) := by
    rw [List.filter_cons_of_pos (by simp), hpeers]
  rw [holders, (h.config.filter _).length_eq, hself, List.length_cons, Nat.add_comm]

/-- The loop looks for the indices of the rule. -/
theorem KnowsCluster.mayCommit_iff (h : n.KnowsCluster) : n.MayCommit i ↔ n.Committable i := by
  constructor
  · rintro ⟨hfresh, _, hown, hquorum⟩
    refine ⟨hfresh, Option.map_eq_some_iff.mp hown, ?_⟩
    rw [← h.holders_length]
    exact hquorum
  · intro hc
    refine ⟨hc.fresh, hc.le_lastLogIndex, Option.map_eq_some_iff.mpr hc.own, ?_⟩
    rw [h.holders_length]
    exact hc.quorum

/-- The members that hold an index of the log are those whose positions reach it. -/
theorem KnowsCluster.holders_reaching (h : n.KnowsCluster) (hlog : i ≤ n.lastLogIndex) :
    (n.holders i).length = reaching i n.matchPositions := by
  have hcount : reaching i (n.peers.map n.matchIndex) = (n.peers.filter (fun p => n.matchIndex p ≥ i)).length := by
    rw [reaching, List.countP_map, List.countP_eq_length_filter]
    rfl
  rw [h.holders_length, matchPositions, reaching_cons_of_le hlog, hcount, Nat.add_comm]

/-- There are at least as many positions as a quorum has members. -/
theorem KnowsCluster.exists_rank (h : n.KnowsCluster) : ∃ m, nthLargest n.quorumSize n.matchPositions = some m := by
  refine exists_nthLargest (Nat.succ_pos _) ?_
  have hlength : n.config.members.length = n.peers.length + 1 := h.config.length_eq
  rw [matchPositions, List.length_cons, List.length_map, ← hlength, quorumSize]
  omega

/-- An earlier entry has no later term than an entry of the log. -/
theorem Orderly.entryAt_le (h : n.Orderly) {e e' : LogEntry} (hi : n.entryAt i = some e)
    (hm : n.entryAt m = some e') (hle : i ≤ m) : e.term ≤ e'.term := by
  obtain ⟨hlow, _, hget⟩ := entryAt_eq_some hi
  obtain ⟨_, _, hget'⟩ := entryAt_eq_some hm
  obtain ⟨hlt, rfl⟩ := List.getElem?_eq_some_iff.mp hget
  obtain ⟨hlt', rfl⟩ := List.getElem?_eq_some_iff.mp hget'
  rcases Int.lt_or_eq_of_le hle with hlt | rfl
  · exact List.pairwise_iff_getElem.mp h.ascending _ _ _ _ (by omega)
  · exact Int.le_refl _

/-- A position is one of the log. -/
theorem Orderly.position_le (h : n.Orderly) (hm : m ∈ n.matchPositions) : m ≤ n.lastLogIndex := by
  rcases List.mem_cons.mp hm with rfl | hpeer
  · exact Int.le_refl _
  · obtain ⟨p, hp, rfl⟩ := List.mem_map.mp hpeer
    exact h.matched p hp

/-- In an orderly log a new index of the current term may be committed if the quorum's position
reaches it. -/
theorem Orderly.mayCommit_iff (h : n.Orderly) (hcluster : n.KnowsCluster)
    (hm : nthLargest n.quorumSize n.matchPositions = some m) :
    n.MayCommit i ↔ i ≤ m ∧ n.commitIndex < i ∧ (n.entryAt i).map LogEntry.term = some n.currentTerm := by
  have hpos : 0 < n.quorumSize := Nat.succ_pos _
  constructor
  · rintro ⟨hfresh, hlog, hown, hquorum⟩
    rw [hcluster.holders_reaching hlog, ← le_nthLargest_iff hpos hm] at hquorum
    exact ⟨hquorum, hfresh, hown⟩
  · rintro ⟨hle, hfresh, hown⟩
    have hlog := hle.trans (h.position_le (mem_of_nthLargest hm))
    refine ⟨hfresh, hlog, hown, ?_⟩
    rw [hcluster.holders_reaching hlog, ← le_nthLargest_iff hpos hm]
    exact hle

/-- In an orderly log the quorum's position may be committed if anything may. -/
theorem Orderly.mayCommit_rank (h : n.Orderly) (hcluster : n.KnowsCluster) (hsnap : n.snapshotIndex ≤ n.commitIndex)
    (hm : nthLargest n.quorumSize n.matchPositions = some m) (hi : n.MayCommit i) : n.MayCommit m := by
  obtain ⟨hle, hfresh, hown⟩ := (h.mayCommit_iff hcluster hm).mp hi
  refine (h.mayCommit_iff hcluster hm).mpr ⟨le_rfl, by omega, ?_⟩
  obtain ⟨e, he, hterm⟩ := Option.map_eq_some_iff.mp hown
  obtain ⟨e', he'⟩ := exists_entryAt (n := n) (i := m) (by omega) (h.position_le (mem_of_nthLargest hm))
  -- the term lies between that of the earlier entry and the node's own, which are equal
  have hlow := h.entryAt_le he he' hle
  have hhigh := h.current e' (List.mem_of_getElem? (entryAt_eq_some he').2.2)
  rw [he', Option.map_some, show e'.term = n.currentTerm by omega]

/-- The rank gives the last index that may be committed. -/
theorem Orderly.commitByRank_eq_some (h : n.Orderly) (hcluster : n.KnowsCluster)
    (hsnap : n.snapshotIndex ≤ n.commitIndex) (hi : IsGreatest {j | n.MayCommit j} i) :
    n.commitByRank = some i := by
  obtain ⟨m, hm⟩ := hcluster.exists_rank
  have hmay := h.mayCommit_rank hcluster hsnap hm hi.1
  obtain rfl : m = i := le_antisymm (hi.2 hmay) ((h.mayCommit_iff hcluster hm).mp hi.1).1
  rw [commitByRank, hm]
  exact Option.filter_some_pos (decide_eq_true ⟨hmay.fresh, hmay.own⟩)

/-- The rank gives nothing if nothing may be committed. -/
theorem Orderly.commitByRank_eq_none (h : n.Orderly) (hcluster : n.KnowsCluster) (hnone : ∀ i, ¬n.MayCommit i) :
    n.commitByRank = none := by
  obtain ⟨m, hm⟩ := hcluster.exists_rank
  have hnot : ¬(n.commitIndex < m ∧ (n.entryAt m).map LogEntry.term = some n.currentTerm) :=
    fun hcond => hnone m ((h.mayCommit_iff hcluster hm).mpr ⟨le_rfl, hcond⟩)
  rw [commitByRank, hm]
  exact Option.filter_some_neg (decide_eq_false hnot)

/-- **`advanceCommitIndexLocked` computes the commit rule.** On a node whose snapshot is committed and whose
configuration is itself and its peers, and while the hard state can be saved, the commit index moves exactly
if the rule allows an index, and then to the last one. In an orderly log that is the quorum's position among
the sorted match positions. -/
theorem advanceCommitIndex_commits_by_rule (hsnap : n.snapshotIndex ≤ n.commitIndex) (hcluster : n.KnowsCluster)
    (disk : PersistentState) :
    ∃ moved advanced disk', n.advanceCommitIndex.run [] disk = (.returned (moved, advanced), disk') ∧
      (advanced = true ↔ ∃ i, n.MayCommit i) ∧
      (advanced = true → IsGreatest {i | n.MayCommit i} moved.commitIndex) ∧
      (advanced = false → moved.commitIndex = n.commitIndex) ∧
      (n.Orderly → advanced = n.commitByRank.isSome ∧ moved.commitIndex = n.commitByRank.getD n.commitIndex) := by
  have hensures : n.advanceCommitIndex.Ensures False (fun _ => False) (fun r _ =>
      (r.2 = true ↔ ∃ i, n.MayCommit i) ∧ (r.2 = true → IsGreatest {i | n.MayCommit i} r.1.commitIndex) ∧
      (r.2 = false → r.1.commitIndex = n.commitIndex) ∧ (n.Orderly → r.2 = n.commitByRank.isSome ∧
        r.1.commitIndex = n.commitByRank.getD n.commitIndex)) disk := by
    refine advanceCommitIndex_exact_rule (fun hlost => hlost.elim False.elim (Int.not_lt.mpr hsnap))
      (fun hnone => ?_) fun i hi hlast => ⟨nofun, ?_⟩
    · have hnone' : ∀ i, ¬n.MayCommit i := fun i hi => hnone i (hcluster.mayCommit_iff.mp hi)
      refine ⟨⟨nofun, fun ⟨i, hi⟩ => absurd hi (hnone' i)⟩, nofun, fun _ => rfl, fun horderly => ?_⟩
      rw [horderly.commitByRank_eq_none hcluster hnone']
      exact ⟨rfl, rfl⟩
    · have hgreatest : IsGreatest {i | n.MayCommit i} i :=
        ⟨hcluster.mayCommit_iff.mpr hi, fun j hj => hlast j (hcluster.mayCommit_iff.mp hj)⟩
      refine ⟨⟨fun _ => ⟨i, hgreatest.1⟩, fun _ => rfl⟩, fun _ => hgreatest, nofun, fun horderly => ?_⟩
      rw [horderly.commitByRank_eq_some hcluster hsnap hgreatest]
      exact ⟨rfl, rfl⟩
  obtain ⟨⟨moved, advanced⟩, disk', hrun, hpost⟩ := StorageProgram.Ensures.returned hensures
  exact ⟨moved, advanced, disk', hrun, hpost⟩

end Node

/-- The leader of term 2 among five members, with entries of both terms; two peers hold all of them. -/
def leaderOfFive : Node :=
  { Node.blank "a" ["b", "c", "d", "e"] with
    role := .leader
    currentTerm := 2
    config := { members := ["a", "b", "c", "d", "e"] }
    log := [{ term := 1, type := entryCommand, command := [1] }, { term := 2, type := entryCommand, command := [2] }]
    matchIndex := fun p => if p = "b" ∨ p = "c" then 2 else 0 }

/-- The leader of five commits index 2, the third largest of the positions 2, 2, 2, 0 and 0. -/
theorem advanceCommitIndex_commits_by_rule_of_five :
    leaderOfFive.snapshotIndex ≤ leaderOfFive.commitIndex ∧ leaderOfFive.KnowsCluster ∧ leaderOfFive.Orderly ∧
      nthLargest leaderOfFive.quorumSize leaderOfFive.matchPositions = some 2 ∧
      ∃ moved disk', leaderOfFive.advanceCommitIndex.run [] .empty = (.returned (moved, true), disk') ∧
        moved.commitIndex = 2 := by
  have hcluster : leaderOfFive.KnowsCluster := by decide
  have horderly : leaderOfFive.Orderly := by decide
  obtain ⟨moved, advanced, disk', hrun, _, _, _, hrank⟩ :=
    Node.advanceCommitIndex_commits_by_rule (n := leaderOfFive) (by decide) hcluster .empty
  obtain ⟨hadvanced, hcommit⟩ := hrank horderly
  have hbyRank : leaderOfFive.commitByRank = some 2 := by decide
  rw [hbyRank] at hadvanced hcommit
  obtain rfl : advanced = true := hadvanced
  exact ⟨by decide, hcluster, horderly, by decide, moved, disk', hrun, hcommit⟩

end ConsensusLab.Raft
