import ClauseForm.Supervision

/-!
Limits on the size of an expansion: on the literals of all new clauses together, and on the number
of distributions.
-/

namespace ClauseForm

/-- Where the count of literals stops: the largest number of 64 bits. -/
def largestCount : Nat := 18446744073709551615

/-- The limits, what was counted so far, and whether the last report exceeded its limit. -/
structure Budget where
  exceeded : Bool
  distributions : Nat
  literals : Nat
  maxLiterals : Nat
  maxDistributions : Option Nat
deriving DecidableEq

namespace Budget

/-- Limits with nothing counted yet. -/
def new (maxLiterals : Nat) (maxDistributions : Option Nat) : Budget :=
  ⟨false, 0, 0, maxLiterals, maxDistributions⟩

/-- Forgets what was counted. -/
def reset (l : Budget) : Budget :=
  { l with exceeded := false, distributions := 0, literals := 0 }

/-- Counts one distribution. -/
def countDistribution (l : Budget) : Except ExpansionError Unit × Budget :=
  let count := l.distributions + 1
  let exceeded := l.maxDistributions.any fun limit => decide (limit < count)
  (if exceeded then .error .tooManyDistributions else .ok (),
    { l with exceeded := exceeded, distributions := count })

/-- Counts the literals of a new clause. -/
def countClause (literals : Nat) (l : Budget) : Except ExpansionError Unit × Budget :=
  let count := min (l.literals + literals) largestCount
  let exceeded := decide (l.maxLiterals < count)
  (if exceeded then .error (.tooManyLiterals l.maxLiterals) else .ok (),
    { l with exceeded := exceeded, literals := count })

/-- The supervisor that enforces limits. -/
def supervisor : Supervisor Budget where
  start l := .ok l.reset
  poll l := (l.exceeded, l)
  distribution := countDistribution
  clause := countClause

end Budget

namespace Monitor

variable {σ : Type}

/-- A monitor together with an optional limit on the literals.  The monitor is polled first, and
only the limit is told of distributions and clauses. -/
def limited (monitor : Monitor σ) : Supervisor (σ × Option Budget) where
  start := fun (s, limit) => do
    return (← monitor.start s, limit.map Budget.reset)
  poll := fun (s, limit) =>
    let (stop, s) := monitor.poll s
    (stop || limit.any Budget.exceeded, s, limit)
  distribution := fun (s, limit) =>
    match limit with
    | none => (.ok (), s, none)
    | some l =>
      let (outcome, l) := l.countDistribution
      (outcome, s, some l)
  clause := fun literals (s, limit) =>
    match limit with
    | none => (.ok (), s, none)
    | some l =>
      let (outcome, l) := l.countClause literals
      (outcome, s, some l)

end Monitor

end ClauseForm
