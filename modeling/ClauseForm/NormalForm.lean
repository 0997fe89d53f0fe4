import ClauseForm.Expression

/-!
The two normal forms: conjunctions of disjunctions and disjunctions of conjunctions.
-/

namespace ClauseForm

/-- A normal form, named by what its clauses are joined with. -/
inductive NormalForm where
  /-- A conjunction of clauses, each a disjunction. -/
  | cnf
  /-- A disjunction of clauses, each a conjunction. -/
  | dnf
deriving DecidableEq, Hashable

namespace NormalForm

/-- The symbol that joins the clauses. -/
def listSymbol : NormalForm → Symbol
  | cnf => .and
  | dnf => .or

/-- The symbol that joins the items of a clause. -/
def clauseSymbol : NormalForm → Symbol
  | cnf => .or
  | dnf => .and

/-- The other normal form. -/
def dual : NormalForm → NormalForm
  | cnf => dnf
  | dnf => cnf

/-- The constant that a normal form has no clause for. -/
def vacuous : NormalForm → Symbol
  | cnf => .verum
  | dnf => .falsum

end NormalForm

end ClauseForm
