import Mathlib.Data.List.Range
import Mathlib.Data.List.Perm.Basic

/-!
# Writes through the cluster client

`ClusterClient.writeToLeader` tries one node after another until one acknowledges the
write. What a node and the network make of a call is up to the environment: the request
may not arrive, the node's service may refuse it, accept it and have it committed or run
into its deadline, and the response may be lost. An accepted write whose call fails is
taken for one that failed, and the next node is tried.
-/

namespace ConsensusLab.Transport

/-- The errors that the service's `startCommand` returns. -/
inductive ServiceError
  | encoding
  | notLeader
  | commitTimeout
  deriving DecidableEq, Repr

/-- The gRPC status codes that a call can end with, other than `OK`. -/
inductive Code
  | canceled
  | unknown
  | deadlineExceeded
  | failedPrecondition
  | internal
  | unavailable
  deriving DecidableEq, Repr

/-- `toGRPCStatus`. -/
def toGRPCStatus : ServiceError → Code
  | .notLeader => .failedPrecondition
  | .commitTimeout => .unavailable
  | .encoding => .internal

/-- The errors of a single node's client. -/
inductive ClientError
  | notLeader
  | status (code : Code)
  deriving DecidableEq, Repr

/-- `fromGRPCStatus`. -/
def fromGRPCStatus : Code → ClientError
  | .failedPrecondition => .notLeader
  | code => .status code

/-- The ways through the service's `startCommand`, with the index that `StartCommand` gives to an accepted
command. -/
inductive Service
  | unencoded
  | refused
  | applied (index : Int)
  | timedOut (index : Int)
  deriving DecidableEq, Repr

/-- `StartCommand` has accepted the command. -/
def Service.accepts : Service → Bool
  | unencoded | refused => false
  | applied _ | timedOut _ => true

/-- What `startCommand` returns. -/
def Service.result : Service → Except ServiceError Int
  | unencoded => .error .encoding
  | refused => .error .notLeader
  | applied index => .ok index
  | timedOut _ => .error .commitTimeout

/-- What becomes of one call. -/
inductive Attempt
  /-- The request does not reach the service. -/
  | unreached (code : Code)
  | answered (service : Service)
  /-- The response does not reach the client. -/
  | unanswered (service : Service) (code : Code)
  deriving DecidableEq, Repr

/-- The command is accepted by the node. -/
def Attempt.accepts : Attempt → Bool
  | unreached _ => false
  | answered service | unanswered service _ => service.accepts

/-- What `Client.Put` and `Client.Delete` return. -/
def Attempt.result : Attempt → Except ClientError Int
  | unreached code | unanswered _ code => .error (fromGRPCStatus code)
  | answered service =>
    match service.result with
    | .ok index => .ok index
    | .error e => .error (fromGRPCStatus (toGRPCStatus e))

/-- A call, and whether the context has expired when it returns. -/
structure Trial where
  attempt : Attempt
  expired : Bool
  deriving DecidableEq, Repr

/-- The errors that a write returns: `ErrNoLeader`, or that of the context. -/
inductive WriteError
  | noLeader
  | context
  deriving DecidableEq, Repr

/-- The clients of a cluster's nodes, named by their positions, and the last known leader; minus one means
unknown. -/
structure ClusterClient where
  clients : ℕ
  leaderHint : Int
  deriving DecidableEq, Repr

/-- How a write went: the client afterwards, the nodes that were called, and what is returned. -/
structure Outcome where
  client : ClusterClient
  contacted : List ℕ
  result : Except WriteError Int

/-- The outcome of a write that has called another node first. -/
def Outcome.after (i : ℕ) (o : Outcome) : Outcome :=
  { o with contacted := i :: o.contacted }

namespace ClusterClient

/-- `setLeaderHint`. -/
def setLeaderHint (c : ClusterClient) (i : ℕ) : ClusterClient :=
  { c with leaderHint := i }

/-- `clearLeaderHintIf`. -/
def clearLeaderHintIf (c : ClusterClient) (i : ℕ) : ClusterClient :=
  if c.leaderHint = i then { c with leaderHint := -1 } else c

/-- `writeOrder`, given the random permutation: the hint comes first. -/
def writeOrder (c : ClusterClient) (perm : List ℕ) : List ℕ :=
  (if 0 ≤ c.leaderHint ∧ c.leaderHint < c.clients then [c.leaderHint.toNat] else []) ++
    perm.filter fun (i : ℕ) => (i : Int) ≠ c.leaderHint

/-- The loop of `writeToLeader` over the nodes that are still to be tried. -/
def tryNodes (env : ℕ → Trial) (c : ClusterClient) : List ℕ → Outcome
  | [] => { client := c, contacted := [], result := .error .noLeader }
  | i :: rest =>
    match (env i).attempt.result with
    | .ok index => { client := c.setLeaderHint i, contacted := [i], result := .ok index }
    | .error .notLeader => ((c.clearLeaderHintIf i).tryNodes env rest).after i
    | .error (.status _) =>
      if (env i).expired then { client := c, contacted := [i], result := .error .context }
      else (c.tryNodes env rest).after i

/-- `writeToLeader`, which `Put` and `Delete` call. -/
def writeToLeader (c : ClusterClient) (perm : List ℕ) (env : ℕ → Trial) : Outcome :=
  c.tryNodes env (c.writeOrder perm)

end ClusterClient

/-- The nodes that have accepted the command. -/
def Outcome.accepted (env : ℕ → Trial) (o : Outcome) : List ℕ :=
  o.contacted.filter fun i => (env i).attempt.accepts

/-- A write has been accepted at most once, and not at all if it returns `ErrNoLeader`. -/
def Outcome.AtMostOnce (env : ℕ → Trial) (o : Outcome) : Prop :=
  (o.accepted env).length ≤ 1 ∧ (o.result = .error .noLeader → o.accepted env = [])

instance (env : ℕ → Trial) (o : Outcome) : Decidable (o.AtMostOnce env) :=
  inferInstanceAs (Decidable (_ ∧ (_ → _)))

/-- The loop returns after this call: it is acknowledged, or fails with the context expired and not for
want of a leader. -/
def Trial.ends (t : Trial) : Bool :=
  match t.attempt.result with
  | .ok _ => true
  | .error .notLeader => false
  | .error (.status _) => t.expired

/-- One of these calls makes the loop return before any is accepted. -/
def ReturnsUnaccepted (env : ℕ → Trial) : List ℕ → Prop
  | [] => False
  | i :: rest =>
    (env i).attempt.accepts = false ∧ ((env i).ends = true ∨ ReturnsUnaccepted env rest)

/-- The loop returns with the first call that is accepted, or with a later one before another is
accepted. -/
def ReturnsInTime (env : ℕ → Trial) : List ℕ → Prop
  | [] => True
  | i :: rest =>
    (env i).ends = true ∨
      if (env i).attempt.accepts then ReturnsUnaccepted env rest else ReturnsInTime env rest

variable {env : ℕ → Trial} {c : ClusterClient} {i : ℕ} {o : Outcome}

/-- A call that ends the loop is the last one, and the write does not return `ErrNoLeader`. -/
theorem tryNodes_of_ends (h : (env i).ends = true) (rest : List ℕ) :
    (c.tryNodes env (i :: rest)).contacted = [i] ∧
      (c.tryNodes env (i :: rest)).result ≠ .error .noLeader := by
  unfold Trial.ends at h
  simp only [ClusterClient.tryNodes]
  cases hresult : (env i).attempt.result with
  | ok index => exact ⟨rfl, nofun⟩
  | error e =>
    rw [hresult] at h
    cases e with
    | notLeader => cases h
    | status code =>
      simp only [if_pos h]
      exact ⟨trivial, nofun⟩

/-- After any other call the remaining nodes are tried. -/
theorem tryNodes_of_not_ends (h : (env i).ends = false) (rest : List ℕ) :
    ∃ c', c.tryNodes env (i :: rest) = (ClusterClient.tryNodes env c' rest).after i := by
  unfold Trial.ends at h
  simp only [ClusterClient.tryNodes]
  cases hresult : (env i).attempt.result with
  | ok index =>
    rw [hresult] at h
    cases h
  | error e =>
    rw [hresult] at h
    cases e with
    | notLeader => exact ⟨_, rfl⟩
    | status code =>
      have hgoing : ¬(env i).expired = true := by
        rw [show (env i).expired = false from h]
        nofun
      simp only [if_neg hgoing]
      exact ⟨_, rfl⟩

/-- An accepting node in front. -/
theorem accepted_after (h : (env i).attempt.accepts = true) :
    (o.after i).accepted env = i :: o.accepted env :=
  List.filter_cons_of_pos h

/-- A node in front that does not accept. -/
theorem accepted_after_of_not (h : (env i).attempt.accepts = false) :
    (o.after i).accepted env = o.accepted env := by
  refine List.filter_cons_of_neg ?_
  rw [h]
  nofun

/-- Nothing is accepted and the write does not return `ErrNoLeader` exactly if a call makes the loop return
before any is accepted. -/
theorem unaccepted_iff (order : List ℕ) (c : ClusterClient) :
    (c.tryNodes env order).accepted env = [] ∧ (c.tryNodes env order).result ≠ .error .noLeader ↔
      ReturnsUnaccepted env order := by
  induction order generalizing c with
  | nil => exact iff_of_false (fun h => h.2 rfl) fun h => h
  | cons i rest ih =>
    simp only [ReturnsUnaccepted]
    cases hends : (env i).ends with
    | true =>
      obtain ⟨hcontacted, hresult⟩ := tryNodes_of_ends (c := c) hends rest
      rw [Outcome.accepted, hcontacted, and_iff_left hresult, and_iff_left (Or.inl rfl)]
      cases haccepts : (env i).attempt.accepts <;> simp [haccepts]
    | false =>
      obtain ⟨c', hrest⟩ := tryNodes_of_not_ends (c := c) hends rest
      rw [hrest]
      cases haccepts : (env i).attempt.accepts with
      | true =>
        rw [accepted_after haccepts]
        exact iff_of_false (fun h => List.cons_ne_nil _ _ h.1) fun h => Bool.noConfusion h.1
      | false =>
        rw [accepted_after_of_not haccepts]
        simp only [Bool.false_eq_true, false_or, true_and]
        exact ih c'

/-- The loop accepts at most once exactly if it returns in time. -/
theorem tryNodes_atMostOnce_iff (order : List ℕ) (c : ClusterClient) :
    (c.tryNodes env order).AtMostOnce env ↔ ReturnsInTime env order := by
  induction order generalizing c with
  | nil => exact iff_of_true ⟨Nat.zero_le _, fun _ => rfl⟩ trivial
  | cons i rest ih =>
    simp only [ReturnsInTime]
    cases hends : (env i).ends with
    | true =>
      obtain ⟨hcontacted, hresult⟩ := tryNodes_of_ends (c := c) hends rest
      refine iff_of_true ⟨?_, fun h => absurd h hresult⟩ (Or.inl rfl)
      rw [Outcome.accepted, hcontacted]
      exact List.length_filter_le _ _
    | false =>
      obtain ⟨c', hrest⟩ := tryNodes_of_not_ends (c := c) hends rest
      simp only [Bool.false_eq_true, false_or]
      rw [hrest, Outcome.AtMostOnce]
      cases haccepts : (env i).attempt.accepts with
      | true =>
        rw [accepted_after haccepts, if_pos rfl, ← unaccepted_iff rest c', List.length_cons]
        refine and_congr ?_ ⟨fun h hno => List.cons_ne_nil _ _ (h hno), fun h hno => absurd hno h⟩
        rw [← List.length_eq_zero_iff]
        omega
      | false =>
        rw [accepted_after_of_not haccepts, if_neg nofun]
        exact ih c'

/-- The nodes that are called are the first ones of the order. -/
theorem contacted_sublist (order : List ℕ) (c : ClusterClient) :
    (c.tryNodes env order).contacted.Sublist order := by
  induction order generalizing c with
  | nil => exact .slnil
  | cons i rest ih =>
    cases hends : (env i).ends with
    | true =>
      rw [(tryNodes_of_ends (c := c) hends rest).1]
      exact (List.nil_sublist rest).cons_cons i
    | false =>
      obtain ⟨c', hrest⟩ := tryNodes_of_not_ends (c := c) hends rest
      rw [hrest]
      exact (ih c').cons_cons i

/-- The order of a write is one of the cluster's nodes, each tried once. -/
theorem writeOrder_perm {perm : List ℕ} (hperm : perm.Perm (List.range c.clients)) :
    (c.writeOrder perm).Perm (List.range c.clients) := by
  have hnodup : perm.Nodup := hperm.nodup_iff.mpr List.nodup_range
  refine List.Perm.trans ?_ hperm
  unfold ClusterClient.writeOrder
  split
  · rename_i hhint
    obtain ⟨k, hk⟩ := Int.eq_ofNat_of_zero_le hhint.1
    have hmem : k ∈ perm := hperm.mem_iff.mpr (List.mem_range.mpr (by omega))
    have hfilter : (perm.filter fun (i : ℕ) => (i : Int) ≠ c.leaderHint) = perm.erase k := by
      rw [hnodup.erase_eq_filter]
      refine List.filter_congr fun i _ => ?_
      rw [hk]
      by_cases hi : i = k
      · simp [hi]
      · have hcast : (i : Int) ≠ (k : Int) := by omega
        simp [hi, hcast]
    rw [hfilter, hk]
    exact (List.perm_cons_erase hmem).symm
  · rename_i hhint
    have hall : (perm.filter fun (i : ℕ) => (i : Int) ≠ c.leaderHint) = perm := by
      refine List.filter_eq_self.mpr fun i hi => ?_
      have hlt := List.mem_range.mp (hperm.mem_iff.mp hi)
      simp only [decide_eq_true_eq]
      omega
    rw [hall]
    exact .refl perm

/-- No node is called twice in a write. -/
theorem contacted_nodup {perm : List ℕ} (hperm : perm.Perm (List.range c.clients)) :
    (c.writeToLeader perm env).contacted.Nodup :=
  ((writeOrder_perm hperm).nodup_iff.mpr List.nodup_range).sublist (contacted_sublist _ c)

/-- **When a write is submitted at most once.** For every client, leader hint, random order of nodes and
behaviour of nodes and network, a write is accepted by at most one node, and by none if it returns
`ErrNoLeader`, exactly if the loop returns with the first call that is accepted or with a later one
before another is accepted. -/
theorem submitted_at_most_once_iff (c : ClusterClient) (perm : List ℕ) (env : ℕ → Trial) :
    (c.writeToLeader perm env).AtMostOnce env ↔ ReturnsInTime env (c.writeOrder perm) :=
  tryNodes_atMostOnce_iff _ c

/-- Every node accepts the write and runs into its deadline before it has committed it. -/
def slowCommit : ℕ → Trial :=
  fun i => { attempt := .answered (.timedOut (i + 1)), expired := false }

/-- Of three nodes that accept a write and time out, all three accept it, and the write returns
`ErrNoLeader`. -/
theorem submitted_three_times :
    (({ clients := 3, leaderHint := -1 } : ClusterClient).writeToLeader [0, 1, 2] slowCommit).accepted
        slowCommit = [0, 1, 2] ∧
      (({ clients := 3, leaderHint := -1 } : ClusterClient).writeToLeader [0, 1, 2] slowCommit).result =
        .error .noLeader := by
  exact ⟨rfl, rfl⟩

end ConsensusLab.Transport
