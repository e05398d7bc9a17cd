import ConsensusLab.Foundation.StorageProgram

/-!
# Storage on top of storage

The calls of a program can be served by another storage, call by call, and each of these
services can succeed, fail or be the last of the process. If a service that succeeds has
the effect of its call, one that fails has none, and one that is cut off leaves what a
crash before or after the call leaves, then the program runs as it does on the storage it
was written for: its run below is a run above with suitable fates. Only a crash behind the
effect of a program's last call is none above, where the program has returned by then.
-/

namespace ConsensusLab.Foundation.StorageProgram

universe u v w

variable {Call : Type u} {A : Type v} {Disk Dir : Type w} {Turn : Type w} [Inhabited Turn]

/-- What the fates after a call that succeeds are. -/
def AfterSuccess (fates rest : List Fate) : Prop :=
  fates = .succeeds :: rest ∨ (fates = [] ∧ rest = [])

/-- A run that begins with a call, by the fate of the call. -/
theorem exec_call_cases {effect : Call → Disk → Disk} {c : Call} {next : Bool → StorageProgram Call A}
    {fates : List Fate} {disk : Disk} {P : Outcome A × Disk → Prop}
    (hsucceeds : ∀ rest, AfterSuccess fates rest → P ((next true).exec effect rest (effect c disk)))
    (hfails : ∀ rest, fates = .fails :: rest → P ((next false).exec effect rest disk)) (hcrashes : P (.crashed, disk)) :
    P ((call c next).exec effect fates disk) := by
  cases fates with
  | nil => exact hsucceeds [] (Or.inr ⟨rfl, rfl⟩)
  | cons fate rest =>
    cases fate with
    | succeeds => exact hsucceeds rest (Or.inl rfl)
    | fails => exact hfails rest rfl
    | crashes => exact hcrashes

/-- Run a program whose calls are served by another storage. The turns say what becomes of the services in order,
and services beyond the list go by the default turn. -/
def execOn (serve : Turn → Dir → Call → Outcome Bool × Dir) :
    StorageProgram Call A → List Turn → Dir → Outcome A × Dir
  | done a, _, dir => (.returned a, dir)
  | fault, _, dir => (.faulted, dir)
  | call c next, turns, dir =>
    match serve (turns.headD default) dir c with
    | (.returned ok, dir') => (next ok).execOn serve turns.tail dir'
    | (.faulted, dir') => (.faulted, dir')
    | (.crashed, dir') => (.crashed, dir')

/-- Each service that a run comes to is one that is admitted. -/
def admits (serve : Turn → Dir → Call → Outcome Bool × Dir) (admitted : Turn → Dir → Call → Bool) :
    StorageProgram Call A → List Turn → Dir → Bool
  | done _, _, _ => true
  | fault, _, _ => true
  | call c next, turns, dir =>
    admitted (turns.headD default) dir c &&
      match serve (turns.headD default) dir c with
      | (.returned ok, dir') => (next ok).admits serve admitted turns.tail dir'
      | _ => true

/-- The admitted services do what the calls are to do. After a crash the lower storage may be found in several
states. -/
structure Implements (serve : Turn → Dir → Call → Outcome Bool × Dir) (admitted : Turn → Dir → Call → Bool)
    (effect : Call → Disk → Disk) (holds : Dir → Disk → Prop) (found : Dir → Dir → Prop) : Prop where
  succeeded : ∀ {t dir c disk dir'}, holds dir disk → admitted t dir c → serve t dir c = (.returned true, dir') →
    holds dir' (effect c disk)
  failed : ∀ {t dir c disk dir'}, holds dir disk → admitted t dir c → serve t dir c = (.returned false, dir') →
    holds dir' disk
  crashed : ∀ {t dir c disk dir' dir''}, holds dir disk → admitted t dir c → serve t dir c = (.crashed, dir') →
    found dir' dir'' → holds dir'' disk ∨ holds dir'' (effect c disk)
  total : ∀ {t dir c disk dir'}, holds dir disk → admitted t dir c → serve t dir c ≠ (.faulted, dir')

variable {serve : Turn → Dir → Call → Outcome Bool × Dir} {admitted : Turn → Dir → Call → Bool}
  {effect : Call → Disk → Disk} {holds : Dir → Disk → Prop} {found : Dir → Dir → Prop}

/-- A program that makes no call. -/
def Quiet : StorageProgram Call A → Prop
  | done _ => True
  | fault => True
  | call _ _ => False

/-- Where no call is made, there is no crash. -/
theorem Quiet.not_crashed {p : StorageProgram Call A} (h : p.Quiet) (turns : List Turn) (dir : Dir) :
    (p.execOn serve turns dir).1 ≠ .crashed := by
  cases p with
  | done a => nofun
  | fault => nofun
  | call c next => exact h.elim

/-- **A run below is a run above.** A program that ends below ends above in the same way and with what the lower
storage holds. If it crashes below, then what is found is what some run leaves above. -/
theorem Implements.execOn (h : Implements serve admitted effect holds found) {p : StorageProgram Call A}
    {turns : List Turn} {dir dir' : Dir} {disk : Disk} {outcome : Outcome A} (hholds : holds dir disk)
    (hadmits : p.admits serve admitted turns dir = true) (hrun : p.execOn serve turns dir = (outcome, dir')) :
    (outcome ≠ .crashed → ∃ fates disk', p.exec effect fates disk = (outcome, disk') ∧ holds dir' disk') ∧
      (outcome = .crashed → ∀ dir'', found dir' dir'' →
        ∃ fates outcome' disk', p.exec effect fates disk = (outcome', disk') ∧ holds dir'' disk') := by
  induction p generalizing turns dir disk with
  | done a =>
    cases hrun
    exact ⟨fun _ => ⟨[], disk, rfl, hholds⟩, nofun⟩
  | fault =>
    cases hrun
    exact ⟨fun _ => ⟨[], disk, rfl, hholds⟩, nofun⟩
  | call c next ih =>
    rw [admits, Bool.and_eq_true] at hadmits
    rw [StorageProgram.execOn] at hrun
    obtain ⟨hok, hrest⟩ := hadmits
    cases hserve : serve (turns.headD default) dir c with
    | mk ended dir₁ =>
    rw [hserve] at hrun hrest
    cases ended with
    | faulted => exact absurd hserve (h.total hholds hok)
    | crashed =>
      cases hrun
      refine ⟨fun hne => absurd rfl hne, fun _ dir'' hfound => ?_⟩
      rcases h.crashed hholds hok hserve hfound with hold | hnew
      · exact ⟨[.crashes], .crashed, disk, rfl, hold⟩
      · -- the effect shows: above, the call succeeds and the process is lost at whatever comes next
        cases hnext : next true with
        | done a => exact ⟨[], .returned a, effect c disk, by rw [exec, hnext]; rfl, hnew⟩
        | fault => exact ⟨[], .faulted, effect c disk, by rw [exec, hnext]; rfl, hnew⟩
        | call c' next' =>
          exact ⟨[.succeeds, .crashes], .crashed, effect c disk, by rw [exec, hnext]; rfl, hnew⟩
    | returned ok =>
      cases ok with
      | true =>
        obtain ⟨hends, hcrash⟩ := ih true (h.succeeded hholds hok hserve) hrest hrun
        refine ⟨fun hne => ?_, fun hcrashed dir'' hfound => ?_⟩
        · obtain ⟨fates, disk', hexec, hholds'⟩ := hends hne
          exact ⟨.succeeds :: fates, disk', hexec, hholds'⟩
        · obtain ⟨fates, outcome', disk', hexec, hholds'⟩ := hcrash hcrashed dir'' hfound
          exact ⟨.succeeds :: fates, outcome', disk', hexec, hholds'⟩
      | false =>
        obtain ⟨hends, hcrash⟩ := ih false (h.failed hholds hok hserve) hrest hrun
        refine ⟨fun hne => ?_, fun hcrashed dir'' hfound => ?_⟩
        · obtain ⟨fates, disk', hexec, hholds'⟩ := hends hne
          exact ⟨.fails :: fates, disk', hexec, hholds'⟩
        · obtain ⟨fates, outcome', disk', hexec, hholds'⟩ := hcrash hcrashed dir'' hfound
          exact ⟨.fails :: fates, outcome', disk', hexec, hholds'⟩

end ConsensusLab.Foundation.StorageProgram
