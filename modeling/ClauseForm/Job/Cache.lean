import ClauseForm.Job
import Std.Data.HashMap

/-!
The results of jobs kept for later.

The results are kept in a table under the jobs themselves.  Two jobs are the same if all of their
parts are equal, and equal jobs have equal hashes.  Only results are kept, no failures.
-/

namespace ClauseForm

/-- Jobs with their results. -/
structure Cache (κ ρ : Type) [BEq κ] [Hashable κ] where
  results : Std.HashMap κ ρ

namespace Cache

variable {κ ρ σ : Type} [BEq κ] [Hashable κ]

/-- No results at all. -/
def empty : Cache κ ρ := ⟨∅⟩

/-- The number of results. -/
def size (cache : Cache κ ρ) : Nat := cache.results.size

/-- The result of a job, if it is kept. -/
def get? (cache : Cache κ ρ) (job : κ) : Option ρ := cache.results[job]?

/-- Decides whether the result of a job is kept. -/
def contains (cache : Cache κ ρ) (job : κ) : Bool := cache.results.contains job

/-- Keeps the result of a job. -/
def keep (cache : Cache κ ρ) (job : κ) (result : ρ) : Cache κ ρ := ⟨cache.results.insert job result⟩

/-- The result of a job, which is done only if its result is not kept yet. -/
def ensure [Job κ ρ] (cache : Cache κ ρ) (job : κ) (monitor : Monitor σ) (state : σ) :
    Except Breakdown ((Except JobError ρ × σ) × Cache κ ρ) :=
  match cache.get? job with
  | some result => .ok ((.ok result, state), cache)
  | none => do
    let (outcome, state) ← Job.run job monitor state
    return match outcome with
      | .ok result => ((.ok result, state), cache.keep job result)
      | .error e => ((.error e, state), cache)

end Cache

end ClauseForm
