import ConsensusLab.Foundation.ReplicatedLog.Invariant

/-!
# Records only grow

Terms keep their leaders, leaders' logs are only extended, and choices stay made. Every
part of the invariant that speaks about these records survives such growth; the one
negative statement, that a later leader lacks a position, survives because a leader
extends its log with entries of its own term only. A position that is appended when a
later leader already exists can no longer be chosen: the later leader's voters have left
the term, and none of them confirmed a position that did not exist.
-/

namespace ConsensusLab.Foundation

variable {Id E : Type*} {s s' : LogState Id E}

/-- The records of `s'` extend those of `s`. -/
structure LogState.Extends (s s' : LogState Id E) : Prop where
  led : ∀ t, s.Led t → s'.Led t
  logs : ∀ t, s.Led t → s.leaderLog t <+: s'.leaderLog t
  chosen : ∀ t n, s.chosen t n → s'.chosen t n

/-- A recorded entry stays in place. -/
theorem LogState.Extends.entry (hext : s.Extends s') {t j : ℕ} {e : E} (hled : s.Led t)
    (h : (s.leaderLog t)[j]? = some e) : (s'.leaderLog t)[j]? = some e := by
  obtain ⟨more, hmore⟩ := hext.logs t hled
  obtain ⟨hj, _⟩ := List.getElem?_eq_some_iff.mp h
  rw [← hmore, List.getElem?_append_left hj, h]

/-- Agreement with a recorded log, as far as that log reached, stays. -/
theorem LogState.Extends.agree (hext : s.Extends s') {t k : ℕ} {l : List E} (hled : s.Led t)
    (hk : k ≤ (s.leaderLog t).length) (h : AgreeBelow k l (s.leaderLog t)) :
    AgreeBelow k l (s'.leaderLog t) := by
  intro j hj
  rw [h j hj, List.getElem?_eq_getElem (by omega),
    hext.entry hled (List.getElem?_eq_getElem (by omega : j < (s.leaderLog t).length))]

/-- Following the leaders is kept: the entries compared are on record. -/
theorem LogState.Follows.extend [Stamped E] {base bound : ℕ} {l : List E}
    (h : s.Follows base bound l) (hext : s.Extends s') : s'.Follows base bound l := by
  intro j t hj ht
  obtain ⟨hle, hled, hsame⟩ := h j t hj ht
  refine ⟨hle, hext.led t hled, fun i hi hij => ?_⟩
  have hilen : i < l.length := by have := lt_length_of_termAt ht; omega
  have hentry := hsame i hi hij
  rw [List.getElem?_eq_getElem hilen] at hentry ⊢
  exact (hext.entry hled hentry.symm).symm

/-- What was settled in a log is settled in a longer one. -/
theorem LogState.Settled.lengthen {bound k : ℕ} {l l' : List E} (hs : s.Settled bound k l) (hk : k ≤ l.length)
    (hlonger : l <+: l') : s.Settled bound k l' := by
  rcases hs with hzero | ⟨t, n, ht, hc, hkn, hagree⟩
  · exact Or.inl hzero
  · obtain ⟨more, rfl⟩ := hlonger
    exact Or.inr ⟨t, n, ht, hc, hkn, (agreeBelow_append more hk).trans hagree⟩

variable [Stamped E] {quorums : QuorumSystem Id}

/-- A chosen position lies within the log of its leader. -/
theorem LogInvariant.chosen_lt (h : LogInvariant quorums s) {t n : ℕ} (hchosen : s.chosen t n) :
    n < (s.leaderLog t).length :=
  lt_length_of_termAt (h.chosen_ok t n hchosen).2.1

/-- Confirmations lie within the log of the leader. -/
theorem LogInvariant.acked_le (h : LogInvariant quorums s) (t : ℕ) (v : Id) : s.acked t v ≤ (s.leaderLog t).length := by
  rcases Nat.eq_zero_or_pos (s.acked t v) with hzero | hpos
  · omega
  · exact (h.acked_ok t v hpos).2.2

/-- Settledness is kept. -/
theorem LogInvariant.settled_extend (h : LogInvariant quorums s) (hext : s.Extends s') {bound k : ℕ}
    {l : List E} (hs : s.Settled bound k l) : s'.Settled bound k l := by
  rcases hs with hzero | ⟨t, n, ht, hchosen, hk, hagree⟩
  · exact Or.inl hzero
  · have hn := h.chosen_lt hchosen
    exact Or.inr ⟨t, n, ht, hext.chosen t n hchosen, hk,
      hext.agree (h.chosen_ok t n hchosen).1 (by omega) hagree⟩

/-- A lost position stays lost when leaders only append entries of their own term. -/
theorem LogInvariant.lost_extend (h : LogInvariant quorums s) (hext : s.Extends s')
    (hown : ∀ t j e, s.Led t → (s.leaderLog t).length ≤ j → (s'.leaderLog t)[j]? = some e →
      Stamped.stamp e = t) {t n u : ℕ} (hled : s.Led t) (hn : n < (s.leaderLog t).length)
    (hlost : s.Lost t n u) : s'.Lost t n u := by
  obtain ⟨htu, hledu, hlack⟩ := hlost
  refine ⟨htu, hext.led u hledu, fun hagree => hlack ?_⟩
  intro j hj
  have hold : (s.leaderLog t)[j]? = some ((s.leaderLog t).get ⟨j, by omega⟩) :=
    List.getElem?_eq_getElem (by omega)
  have hnow : (s'.leaderLog u)[j]? = some ((s.leaderLog t).get ⟨j, by omega⟩) := by
    rw [hagree j hj, hext.entry hled hold]
  rcases Nat.lt_or_ge j (s.leaderLog u).length with hin | hout
  · have hthen := List.getElem?_eq_getElem hin
    rw [hext.entry hledu hthen] at hnow
    rw [hthen, hnow, hold]
  · have hstamp := hown u j _ hledu hout hnow
    have hterm : termAt (s.leaderLog t) j = some u := by rw [termAt, hold, Option.map_some, hstamp]
    have := (h.leader_follows t hled j u (Nat.zero_le _) hterm).1
    omega

/-- What a step does to the records: they are extended, leaders append only entries of their own term, terms do
not decrease, and what a participant has confirmed in earlier terms than its own stays as it is. -/
structure LogState.Amends (s s' : LogState Id E) : Prop extends s.Extends s' where
  own : ∀ t j e, s.Led t → (s.leaderLog t).length ≤ j → (s'.leaderLog t)[j]? = some e → Stamped.stamp e = t
  term_le : ∀ v, s.term v ≤ s'.term v
  acked_le : ∀ t v, s.acked t v ≤ s'.acked t v
  acked_past : ∀ t v, t < s.term v → s'.acked t v = s.acked t v

/-- Leaders and their logs stay as they are. -/
theorem LogState.Amends.of_eq (hleader : s'.leader = s.leader) (hlog : s'.leaderLog = s.leaderLog)
    (hchosen : ∀ t n, s.chosen t n → s'.chosen t n) (hterm : ∀ v, s.term v ≤ s'.term v)
    (hacked : ∀ t v, s.acked t v ≤ s'.acked t v) (hpast : ∀ t v, t < s.term v → s'.acked t v = s.acked t v) :
    s.Amends s' where
  led t ht := by rwa [LogState.Led, hleader]
  logs t _ := by rw [hlog]
  chosen := hchosen
  own t j e _ hj he := by
    rw [hlog, List.getElem?_eq_none hj] at he
    cases he
  term_le := hterm
  acked_le := hacked
  acked_past := hpast

/-- The entries on record keep their terms. -/
theorem LogState.Extends.termAt_eq (hext : s.Extends s') {t n : ℕ} (hled : s.Led t)
    (hn : n < (s.leaderLog t).length) : termAt (s'.leaderLog t) n = termAt (s.leaderLog t) n := by
  obtain ⟨more, hmore⟩ := hext.logs t hled
  rw [← hmore]
  exact termAt_congr (List.getElem?_append_left hn)

/-- A lost position stays lost. -/
theorem LogInvariant.lost_amend (h : LogInvariant quorums s) (ha : s.Amends s') {t n u : ℕ} (hled : s.Led t)
    (hn : n < (s.leaderLog t).length) (hlost : s.Lost t n u) : s'.Lost t n u :=
  h.lost_extend ha.toExtends ha.own hled hn hlost

/-- What was confirmed is on record, with the same term. -/
theorem LogInvariant.acked_amend (h : LogInvariant quorums s) (ha : s.Amends s') {t n : ℕ} {v : Id}
    (hn : n < s.acked t v) :
    s.Led t ∧ n < (s.leaderLog t).length ∧ termAt (s'.leaderLog t) n = termAt (s.leaderLog t) n := by
  obtain ⟨_, hled, hlen⟩ := h.acked_ok t v (by omega)
  have hin : n < (s.leaderLog t).length := by omega
  exact ⟨hled, hin, ha.termAt_eq hled hin⟩

/-- A participant whose log stays as it is keeps what it has confirmed. -/
theorem LogInvariant.kept_amend (h : LogInvariant quorums s) (ha : s.Amends s') {t n : ℕ} {v : Id}
    (hlog : s'.log v = s.log v) (hn : n < s.acked t v) (hstamp : termAt (s'.leaderLog t) n = some t) :
    s'.Kept v t n := by
  obtain ⟨hled, hin, hsame⟩ := h.acked_amend ha hn
  rw [hsame] at hstamp
  rcases h.kept t v n hn hstamp with ⟨hagree, hend⟩ | ⟨u, hu, hlost⟩
  · left
    rw [hlog]
    exact ⟨ha.agree hled hin hagree, hend⟩
  · exact Or.inr ⟨u, hu.trans (ha.term_le v), h.lost_amend ha hled hin hlost⟩

/-- What a voter knows of the log that it voted for stays true. -/
theorem LogInvariant.backed_amend (h : LogInvariant quorums s) (ha : s.Amends s') {u : ℕ} {v : Id} {l : List E}
    (hback : s.Backed v u l) (hacked : ∀ t < u, s'.acked t v = s.acked t v) : s'.Backed v u l := by
  intro t n htu hn hstamp
  rw [hacked t htu] at hn
  obtain ⟨hled, hin, hsame⟩ := h.acked_amend ha hn
  rw [hsame] at hstamp
  rcases hback t n htu hn hstamp with hend | ⟨w, hw, hlost⟩ | hledu
  · exact Or.inl hend
  · exact Or.inr (Or.inl ⟨w, hw, h.lost_amend ha hled hin hlost⟩)
  · exact Or.inr (Or.inr (ha.led u hledu))

/-- A quorum stays behind a position of an earlier term when it has left this term. -/
theorem LogState.Amends.behind (ha : s.Amends s') {u t n : ℕ} (htu : t < u)
    (hlow : ∃ Q, quorums.IsQuorum Q ∧ ∀ v ∈ Q, u ≤ s.term v ∧ s.acked t v ≤ n) :
    ∃ Q, quorums.IsQuorum Q ∧ ∀ v ∈ Q, u ≤ s'.term v ∧ s'.acked t v ≤ n := by
  obtain ⟨Q, hQ, hlow⟩ := hlow
  refine ⟨Q, hQ, fun v hv => ?_⟩
  obtain ⟨hterm, hacked⟩ := hlow v hv
  rw [ha.acked_past t v (by omega)]
  exact ⟨hterm.trans (ha.term_le v), hacked⟩

/-- The voters of a leader have not confirmed anything behind the logs of earlier leaders. -/
theorem LogInvariant.voters_behind (h : LogInvariant quorums s) {u t n : ℕ} (hled : s.Led u)
    (hnew : (s.leaderLog t).length ≤ n) :
    ∃ Q, quorums.IsQuorum Q ∧ ∀ v ∈ Q, u ≤ s.term v ∧ s.acked t v ≤ n := by
  obtain ⟨c, hc⟩ := Option.ne_none_iff_exists'.mp hled
  obtain ⟨_, Q, hQ, hvotes⟩ := h.election.elected u c hc
  refine ⟨Q, hQ, fun v hv => ⟨?_, ?_⟩⟩
  · exact h.election.ballot_le u v (by rw [hvotes v hv]; exact Option.some_ne_none c)
  · exact (h.acked_le t v).trans hnew

/-- The leaders so far still cover the positions of earlier terms, also those that are new. -/
theorem LogInvariant.covers_amend (h : LogInvariant quorums s) (ha : s.Amends s') {u t n : ℕ} (hu : s.Led u)
    (ht : s.Led t) (htu : t < u) (hstamp : termAt (s'.leaderLog t) n = some t) : s'.Covers quorums u t n := by
  rcases Nat.lt_or_ge n (s.leaderLog t).length with hin | hnew
  · rw [ha.termAt_eq ht hin] at hstamp
    rcases h.covers u t n hu htu hstamp ht with hagree | ⟨w, hw, hlost⟩ | hlow
    · have hnu : n + 1 ≤ (s.leaderLog u).length := hagree.symm.le_length (by omega)
      exact Or.inl (ha.agree hu hnu (ha.agree ht (by omega) hagree).symm).symm
    · exact Or.inr (Or.inl ⟨w, hw, h.lost_amend ha ht hin hlost⟩)
    · exact Or.inr (Or.inr (ha.behind htu hlow))
  · exact Or.inr (Or.inr (ha.behind htu (h.voters_behind hu hnew)))

/-- A choice stays confirmed. -/
theorem LogInvariant.chosen_amend (h : LogInvariant quorums s) (ha : s.Amends s') {t n : ℕ} (hchosen : s.chosen t n)
    (hcommit : s.leaderCommit t ≤ s'.leaderCommit t) :
    s'.Led t ∧ termAt (s'.leaderLog t) n = some t ∧ n < s'.leaderCommit t ∧
      ∃ Q, quorums.IsQuorum Q ∧ ∀ v ∈ Q, n < s'.acked t v := by
  obtain ⟨hled, hstamp, hn, Q, hQ, hconfirmed⟩ := h.chosen_ok t n hchosen
  refine ⟨ha.led t hled, ?_, by omega, Q, hQ, fun v hv => (hconfirmed v hv).trans_le (ha.acked_le t v)⟩
  rw [ha.termAt_eq hled (h.chosen_lt hchosen), hstamp]

/-- Old confirmations stay within the logs of their leaders. -/
theorem LogInvariant.acked_ok_amend (h : LogInvariant quorums s) (ha : s.Amends s') {t : ℕ} {v : Id}
    (hpos : 0 < s.acked t v) : t ≤ s'.term v ∧ s'.Led t ∧ s.acked t v ≤ (s'.leaderLog t).length := by
  obtain ⟨hle, hled, hlen⟩ := h.acked_ok t v hpos
  exact ⟨hle.trans (ha.term_le v), ha.led t hled, hlen.trans (ha.logs t hled).length_le⟩

end ConsensusLab.Foundation
