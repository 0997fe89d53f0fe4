import ClauseForm.Literals.Naming

/-!
Lists of clauses.

A list stands for a formula in either normal form: for the conjunction of its clauses, each a
disjunction of its literals, or for the disjunction of its clauses, each a conjunction.
-/

namespace ClauseForm

/-- Clauses in order. -/
structure Clauses where
  toList : List Clause
deriving DecidableEq, Hashable, Inhabited

namespace Clauses

/-- No clauses at all. -/
def empty : Clauses := ⟨[]⟩

/-- The clauses of some integers, if all of these can be literals. -/
def ofLists? (lists : List (List Int)) : Except Faults Clauses := do
  return ⟨← Faults.collectAll (lists.map Literals.ofList?)⟩

/-- The number of clauses. -/
def size (l : Clauses) : Nat := l.toList.length

/-- Appends a clause. -/
def push (l : Clauses) (c : Clause) : Clauses := ⟨l.toList ++ [c]⟩

/-- The lexicographic order of lists of literals. -/
def lexicographicLe : List Int → List Int → Bool
  | [], _ => true
  | _ :: _, [] => false
  | a :: as, b :: bs => decide (a < b) || a == b && lexicographicLe as bs

/-- The clauses in the lexicographic order of their literals. -/
def sorted (l : Clauses) : Clauses :=
  ⟨l.toList.mergeSort fun a b => lexicographicLe a.toList b.toList⟩

/-- The negations of the clauses. -/
def negate (l : Clauses) : Clauses := ⟨l.toList.map Literals.negate⟩

/-- All literals of all clauses. -/
def literals (l : Clauses) : List Int := l.toList.flatMap Literals.toList

/-- The number of literals of all clauses. -/
def literalCount (l : Clauses) : Nat := l.literals.length

/-- The indices that occur, each once, in increasing order. -/
def indices (l : Clauses) : List Nat := (l.literals.map Int.natAbs).mergeSort.eraseDups

/-- The number of indices that occur. -/
def indexCount (l : Clauses) : Nat := l.indices.length

/-- The largest index that occurs, or zero. -/
def maxIndex (l : Clauses) : Nat := (l.literals.map Int.natAbs).foldl max 0

/-- The clauses of the same names in another numbering. -/
def renumber (l : Clauses) (source target : Numbering) : Except Faults Clauses := do
  return ⟨← Faults.collectAll (l.toList.map fun c => c.renumber source target)⟩

/-- For each clause the bindings that make all of its literals true. -/
def toBindings (l : Clauses) (m : Numbering) : Except Faults (List Bindings) :=
  Faults.collectAll (l.toList.map fun c => c.toBindings m)

/-- For each of some bindings the clause of the literals that they make true. -/
def ofBindings (vs : List Bindings) (m : Numbering) : Except Faults Clauses := do
  return ⟨← Faults.collectAll (vs.map fun v => Literals.ofBindings v m)⟩

end Clauses

end ClauseForm
