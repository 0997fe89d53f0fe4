import ClauseForm.Clauses
import ClauseForm.Supervision

/-!
Searching the valuations of a set of clauses for those that satisfy all of them.

The clauses are read as a conjunction of disjunctions.  Assumptions fix some indices; the others, up
to the largest index in clauses and assumptions, are free.  The truth values of the free indices are
counted up in place, as a binary number whose lowest digit is that of the smallest of them, until
none of them is false.  The monitor is polled before each of the valuations that are met.
-/

namespace ClauseForm

/-- Truth values for indices; the one at position zero belongs to no index. -/
abbrev Valuation := Array Bool

namespace Valuation

/-- The truth value of an index. -/
def value (v : Valuation) (index : Nat) : Bool := v.getD index false

/-- Counts the values of some indices up by one, as a binary number whose lowest digit belongs to the
first of them.  After the last number all of them are false again, and the answer is no. -/
def increment : List Nat → Valuation → Bool × Valuation
  | [], v => (false, v)
  | index :: free, v =>
    if v.value index then
      increment free (v.setIfInBounds index false)
    else
      (true, v.setIfInBounds index true)

/-- How many numbers come after that of a valuation. -/
def remaining : List Nat → Valuation → Nat
  | [], _ => 0
  | index :: free, v => (if v.value index then 0 else 1) + 2 * remaining free v

/-- Decides whether a literal is true. -/
def satisfiesLiteral (v : Valuation) (literal : Int) : Bool :=
  v.value literal.natAbs == decide (0 < literal)

/-- Decides whether a clause has a true literal. -/
def satisfies (v : Valuation) (c : Clause) : Bool := c.toArray.any v.satisfiesLiteral

/-- The true literals, one for each index. -/
def toSolution (v : Valuation) : Solution :=
  .arranged ((List.range (v.size - 1)).map fun i =>
    if v.value (i + 1) then ((i : Int) + 1) else -((i : Int) + 1))

@[simp]
theorem size_increment (free : List Nat) (v : Valuation) :
    (increment free v).2.size = v.size := by
  fun_induction increment free v with
  | case1 v => rfl
  | case2 index free v hset ih => rw [ih, Array.size_setIfInBounds]
  | case3 index free v hclear => exact Array.size_setIfInBounds ..

theorem value_setIfInBounds {v : Valuation} {index : Nat} (b : Bool) (hindex : index < v.size)
    (other : Nat) :
    value (v.setIfInBounds index b) other = if index = other then b else v.value other := by
  simp only [value, Array.getD_eq_getD_getElem?, Array.getElem?_setIfInBounds, hindex, if_true]
  split
  · simp
  · rfl

theorem remaining_setIfInBounds {free : List Nat} {v : Valuation} {index : Nat}
    (hindex : index < v.size) (hnew : index ∉ free) (b : Bool) :
    remaining free (v.setIfInBounds index b) = remaining free v := by
  induction free with
  | nil => rfl
  | cons other free ih =>
      have hne := List.ne_of_not_mem_cons hnew
      rw [remaining, remaining, ih (List.not_mem_of_not_mem_cons hnew),
        value_setIfInBounds b hindex, if_neg hne]

theorem remaining_increment {free : List Nat} {v : Valuation} (hnodup : free.Nodup)
    (hinside : ∀ i ∈ free, i < v.size) (hmore : (increment free v).1 = true) :
    remaining free (increment free v).2 < remaining free v := by
  fun_induction increment free v with
  | case1 v => contradiction
  | case2 index free v hset ih =>
      obtain ⟨hnew, hnodup⟩ := List.nodup_cons.mp hnodup
      obtain ⟨hindex, hinside⟩ := List.forall_mem_cons.mp hinside
      have hrest := ih hnodup (by simpa using hinside) hmore
      rw [remaining_setIfInBounds hindex hnew] at hrest
      simp only [remaining, hset, if_true]
      split <;> omega
  | case3 index free v hclear =>
      obtain ⟨hnew, -⟩ := List.nodup_cons.mp hnodup
      have hindex := hinside index List.mem_cons_self
      simp only [remaining, remaining_setIfInBounds hindex hnew, value_setIfInBounds true hindex,
        if_true, hclear, Bool.false_eq_true, if_false]
      omega

end Valuation

/-- The valuation under construction, and the indices that are not assumed. -/
structure Counter where
  values : Valuation
  free : List Nat
  nodup : free.Nodup
  inside : ∀ i ∈ free, i < values.size

namespace Counter

/-- Counts up in place. -/
def increment (c : Counter) : Bool × Counter :=
  let counted := c.values.increment c.free
  (counted.1, { c with values := counted.2, inside := by simpa [counted] using c.inside })

/-- How many valuations are still to come. -/
def remaining (c : Counter) : Nat := c.values.remaining c.free

theorem remaining_increment {c : Counter} (hmore : c.increment.1 = true) :
    c.increment.2.remaining < c.remaining :=
  Valuation.remaining_increment c.nodup c.inside hmore

variable {m : Type → Type} [Monad m]

/-- Visits the valuation of a counter and all that come after it. -/
@[specialize]
def sweep (visit : Valuation → m Unit) (c : Counter) : m Unit := do
  visit c.values
  if _ : c.increment.1 = true then
    sweep visit c.increment.2
termination_by c.remaining
decreasing_by exact remaining_increment ‹_›

end Counter

/-- Assumptions that were made so far: which indices are assumed, and what. -/
structure Assumed where
  indices : Array Bool
  values : Valuation

namespace Assumed

/-- No assumptions about the indices below a bound. -/
def empty (bound : Nat) : Assumed := ⟨.replicate bound false, .replicate bound false⟩

/-- Decides whether an index is assumed. -/
def fixes (s : Assumed) (index : Nat) : Bool := s.indices.getD index false

/-- Decides whether the opposite of a literal is assumed. -/
def contradicts (s : Assumed) (literal : Int) : Bool :=
  s.fixes literal.natAbs && s.values.value literal.natAbs != decide (0 < literal)

/-- Assumes a literal. -/
def add (s : Assumed) (literal : Int) : Assumed where
  indices := s.indices.setIfInBounds literal.natAbs true
  values := s.values.setIfInBounds literal.natAbs (decide (0 < literal))

/-- Assumes literals one after another, unless one contradicts another. -/
def addAll? (s : Assumed) : List Int → Option Assumed
  | [] => some s
  | literal :: literals =>
    if s.contradicts literal then none else (s.add literal).addAll? literals

/-- The indices from one on that are not assumed, in increasing order. -/
def free (s : Assumed) : List Nat :=
  (List.range' 1 (s.values.size - 1)).filter fun index => !s.fixes index

theorem nodup_free (s : Assumed) : s.free.Nodup := (List.nodup_range').filter _

theorem lt_of_mem_free {s : Assumed} {index : Nat} (h : index ∈ s.free) :
    index < s.values.size := by
  have hrange := List.mem_range'_1.mp (List.mem_filter.mp h).1
  omega

/-- The counter that starts where all indices that are not assumed are false. -/
def counter (s : Assumed) : Counter where
  values := s.values
  free := s.free
  nodup := s.nodup_free
  inside := fun _ => lt_of_mem_free

end Assumed

/-- The outcome of a search for a satisfying valuation. -/
inductive Verdict where
  | unsatisfiable
  | undecided
  | satisfiable
deriving DecidableEq

/-- The outcome of counting the satisfying valuations. -/
inductive Count where
  | exact (count : Nat)
  | atLeast (count : Nat)
deriving DecidableEq

/-- Why a sweep over the valuations ends early. -/
inductive SweepEnd where
  | stopped
  | found (v : Valuation)

/-- Clauses to satisfy, their largest index, and the solution found last. -/
structure ModelSearch where
  clauses : List Clause
  maxIndex : Nat
  solution : Option Solution

namespace ModelSearch

variable {σ : Type}

/-- No clauses at all. -/
def empty : ModelSearch := ⟨[], 0, none⟩

/-- Adds clauses.  A solution found without them does not count any more. -/
def add (s : ModelSearch) (l : Clauses) : ModelSearch :=
  ⟨s.clauses ++ l.toList, max s.maxIndex l.maxIndex, none⟩

/-- Decides whether a valuation satisfies all clauses. -/
def satisfiedBy (s : ModelSearch) (v : Valuation) : Bool := s.clauses.all v.satisfies

/-- The largest index in the clauses and in some assumptions. -/
def range (s : ModelSearch) (assumptions : Assignment) : Nat :=
  assumptions.toList.foldl (fun n literal => max n literal.natAbs) s.maxIndex

/-- The counter through the valuations that agree with some assumptions.  There is none if they
contradict each other. -/
def counter? (s : ModelSearch) (assumptions : Assignment) : Option Counter :=
  ((Assumed.empty (s.range assumptions + 1)).addAll? assumptions.toList).map Assumed.counter

/-- Visits the valuations that satisfy the clauses and the assumptions, under a monitor.  There are
none if the assumptions contradict each other. -/
def sweepModels (s : ModelSearch) (monitor : Monitor σ) (assumptions : Assignment)
    (visit : Valuation → ExceptT SweepEnd (StateM (σ × Nat)) Unit) :
    ExceptT SweepEnd (StateM (σ × Nat)) Unit :=
  match s.counter? assumptions with
  | none => pure ()
  | some counter =>
    counter.sweep fun v => do
      let stop ← modifyGet fun (state, count) =>
        let (stop, state) := monitor.poll state
        (stop, state, count)
      if stop then throw .stopped
      if s.satisfiedBy v then visit v

/-- Searches for a valuation that satisfies the clauses and the assumptions.  The first one becomes
the solution; without one there is none. -/
def search (s : ModelSearch) (assumptions : Assignment) (monitor : Monitor σ) (state : σ) :
    Except Breakdown (Verdict × ModelSearch × σ) := do
  let started ← monitor.start state
  let (outcome, state, _) :=
    (s.sweepModels monitor assumptions fun v => throw (.found v)).run.run (started, 0)
  return match outcome with
    | .ok () => (.unsatisfiable, { s with solution := none }, state)
    | .error .stopped => (.undecided, { s with solution := none }, state)
    | .error (.found v) => (.satisfiable, { s with solution := some v.toSolution }, state)

/-- Counts the valuations that satisfy the clauses and the assumptions.  If the monitor stops the
count, what was counted until then is a lower bound. -/
def count (s : ModelSearch) (assumptions : Assignment) (monitor : Monitor σ) (state : σ) :
    Except Breakdown (Count × σ) := do
  let started ← monitor.start state
  let (outcome, state, n) :=
    (s.sweepModels monitor assumptions fun _ =>
      modify fun (state, n) => (state, n + 1)).run.run (started, 0)
  return match outcome with
    | .ok () => (.exact n, state)
    | .error _ => (.atLeast n, state)

end ModelSearch

end ClauseForm
