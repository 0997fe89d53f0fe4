/-!
Watching a long computation and stopping it.

A computation that can be watched reports to an `Observer` in some monad.  A `Supervisor` is an
observer given as a state machine: it may stop the computation at every report, either by answering
a poll with yes or by failing on a distribution or a new clause.  A `Monitor` is the part of a
supervisor that every computation can use: its start and its polls.
-/

namespace ClauseForm

/-- Why an expansion into clauses ends without a result. -/
inductive ExpansionError where
  | tooManyLiterals (limit : Nat)
  | tooManyDistributions
  | canceled
deriving DecidableEq

/-- The message for an expansion that ends without a result. -/
def ExpansionError.message : ExpansionError → String
  | tooManyLiterals limit => s!"the expansion needs more than {limit} literals"
  | tooManyDistributions => "the expansion needs too many distributions"
  | canceled => "the expansion was aborted"

/-- What an expansion reports: a point at which it can be left, a distribution of one clause list
over another, and a new clause with its number of literals. -/
structure Observer (m : Type → Type) where
  checkpoint : m Unit
  distribution : m Unit
  clause (literals : Nat) : m Unit

/-- An observer that does nothing. -/
@[inline]
def Observer.silent {m : Type → Type} [Monad m] : Observer m where
  checkpoint := pure ()
  distribution := pure ()
  clause _ := pure ()

/-- A supervisor broke down instead of doing its work. -/
structure Breakdown where
  message : String
deriving DecidableEq

/-- A state machine that is told of a start and answers polls: yes means stop. -/
structure Monitor (σ : Type) where
  start : σ → Except Breakdown σ
  poll : σ → Bool × σ

/-- A monitor that is also told of distributions and new clauses, and may fail on each. -/
structure Supervisor (σ : Type) extends Monitor σ where
  distribution : σ → Except ExpansionError Unit × σ
  clause : Nat → σ → Except ExpansionError Unit × σ

/-- Computations under a supervisor: they carry its state, also past their end. -/
abbrev Supervised (σ : Type) := ExceptT ExpansionError (StateM σ)

namespace Supervisor

variable {σ α : Type}

/-- A supervisor as an observer: a poll answered with yes cancels the computation. -/
def observer (s : Supervisor σ) : Observer (Supervised σ) where
  checkpoint := do
    if ← modifyGet s.poll then throw .canceled
  distribution := do
    match ← modifyGet s.distribution with
    | .ok () => pure ()
    | .error e => throw e
  clause n := do
    match ← modifyGet (s.clause n) with
    | .ok () => pure ()
    | .error e => throw e

/-- Starts a supervisor in some state and runs a computation under it.  The result comes with the
last state of the supervisor. -/
def supervise (s : Supervisor σ) (state : σ)
    (computation : Observer (Supervised σ) → Supervised σ α) :
    Except Breakdown (Except ExpansionError α × σ) := do
  let started ← s.start state
  return (computation s.observer).run.run started

/-- A monitor as a supervisor that never fails. -/
def ofMonitor (monitor : Monitor σ) : Supervisor σ where
  toMonitor := monitor
  distribution s := (.ok (), s)
  clause _ s := (.ok (), s)

end Supervisor

/-- A monitor that never stops anything. -/
def Monitor.silent : Monitor Unit where
  start _ := .ok ()
  poll _ := (false, ())

end ClauseForm
