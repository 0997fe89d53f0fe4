import ClauseForm.Clauses.Encoding
import ClauseForm.Clauses.Extraction
import ClauseForm.NormalForm.Expansion

/-!
Jobs: computations as values, which say what to compute from which expression.

A job is run under a monitor, with or without somebody waiting for the monitor, or through a cache.
There are three kinds of jobs: for the negation normal form, for one of the two normal forms, and
for the encoding of an expression, which numbers its names and turns its normal form into clauses.
-/

namespace ClauseForm

/-- Why a job has no result. -/
inductive JobError where
  /-- There is no normal form. -/
  | expansion (error : ExpansionError)
  /-- The normal form is no list of clauses over numbered names. -/
  | extraction (faults : Faults)
  | canceled
  /-- The monitor broke down while nobody waited for it. -/
  | brokenDown
deriving DecidableEq

namespace JobError

/-- A canceled expansion cancels its job; other errors are passed on. -/
def ofExpansion : ExpansionError → JobError
  | .canceled => canceled
  | e => expansion e

/-- What is behind an error, in words. -/
def cause? : JobError → Option String
  | expansion e => some e.message
  | extraction fs => some fs.message
  | canceled | brokenDown => none

/-- The message for a job without a result. -/
def message : JobError → String
  | expansion e => s!"factorization failed: {e.message}"
  | extraction fs => s!"conversion failed: {fs.message}"
  | canceled => "the computation was canceled"
  | brokenDown => "the computation panicked"

end JobError

namespace Encoding

/-- The encoding of an expression whose normal form is known.  The names are numbered as they occur
in the expression itself. -/
def ofNormalForm (form : NormalForm) (e normal : Expression) : Except JobError Encoding :=
  let m := Numbering.ofExpression e
  match normal.toClauses form m with
  | .ok clauses => .ok ⟨clauses, m⟩
  | .error fs => .error (.extraction fs)

/-- The encoding of an expression from the outcome of its expansion. -/
def ofExpansion (form : NormalForm) (e : Expression) (outcome : Except ExpansionError Expression) :
    Except JobError Encoding :=
  match outcome with
  | .ok normal => ofNormalForm form e normal
  | .error error => .error (.ofExpansion error)

/-- The encoding of an expression under an optional limit on the literals. -/
def within (limit : Option Nat) (form : NormalForm) (e : Expression) :
    Except JobError Encoding :=
  ofExpansion form e (e.normalFormWithin limit form)

/-- The encoding of an expression under a supervisor in some state. -/
def under {σ : Type} (s : Supervisor σ) (state : σ) (form : NormalForm) (e : Expression) :
    Except Breakdown (Except JobError Encoding × σ) := do
  let (outcome, state) ← e.normalFormUnder s state form
  return (ofExpansion form e outcome, state)

end Encoding

/-- A kind of job, and what its results are. -/
class Job (κ : Type) (ρ : outParam Type) where
  /-- The expression that a job is about. -/
  subject : κ → Expression
  /-- The same job about another expression. -/
  withSubject : κ → Expression → κ
  /-- Does a job under a monitor in some state. -/
  run {σ : Type} : κ → Monitor σ → σ → Except Breakdown (Except JobError ρ × σ)

/-- Does a job while nobody waits for the monitor: its breakdown becomes an error of the job. -/
def Job.runDetached {κ ρ σ : Type} [Job κ ρ] (job : κ) (monitor : Monitor σ) (state : σ) :
    Except JobError ρ :=
  match Job.run job monitor state with
  | .ok (outcome, _) => outcome
  | .error _ => .error .brokenDown

/-- The job of finding a negation normal form. -/
structure NnfJob where
  subject : Expression
deriving BEq, Hashable

/-- The negation normal form is found in one go, after a single poll. -/
instance : Job NnfJob Expression where
  subject job := job.subject
  withSubject _ e := ⟨e⟩
  run job monitor state := do
    let (stop, state) := monitor.poll (← monitor.start state)
    return (if stop then .error .canceled else .ok job.subject.nnf, state)

/-- The budget of a job with an optional limit on the literals. -/
def jobBudget (limit : Option Nat) : Option Budget := limit.map fun limit => .new limit none

/-- The job of finding a normal form, with an optional limit on the literals. -/
structure NormalFormJob where
  subject : Expression
  form : NormalForm
  limit : Option Nat
deriving BEq, Hashable

instance : Job NormalFormJob Expression where
  subject job := job.subject
  withSubject job e := { job with subject := e }
  run job monitor state := do
    let (outcome, state, _) ←
      job.subject.normalFormUnder monitor.limited (state, jobBudget job.limit) job.form
    return (outcome.mapError .ofExpansion, state)

/-- The job of finding an encoding, with an optional limit on the literals. -/
structure EncodingJob where
  subject : Expression
  form : NormalForm
  limit : Option Nat
deriving BEq, Hashable

instance : Job EncodingJob Encoding where
  subject job := job.subject
  withSubject job e := { job with subject := e }
  run job monitor state := do
    let (outcome, state, _) ←
      Encoding.under monitor.limited (state, jobBudget job.limit) job.form job.subject
    return (outcome, state)

end ClauseForm
