import ClauseForm.Clauses
import ClauseForm.NormalForm

/-!
Reading a clause list off a formula.

The formula is taken as a list of clauses joined by the outer connective of a normal form, and each
clause as literals joined by the inner one; without its connective a formula is a single clause and
a clause a single literal.  The constant that a clause amounts to with nothing else needed drops the
clause, the other constant is dropped from it.
-/

namespace ClauseForm

namespace Expression

/-- The clauses that a formula falls into. -/
def clauseParts (form : NormalForm) (e : Expression) : List Expression :=
  if e.symbol == form.listSymbol then e.operands else [e]

/-- The items that a clause falls into. -/
def itemParts (form : NormalForm) (clause : Expression) : List Expression :=
  if clause.symbol == form.clauseSymbol then clause.operands else [clause]

/-- The literal that an item contributes; constants contribute none. -/
def itemLiteral (m : Numbering) (item : Expression) : Except Fault (Option Int) :=
  match item.symbol with
  | .literal name positive => (m.literalOf name positive).map some
  | .verum | .falsum => .ok none
  | s => .error (.notInClause s)

/-- The clause of some items, unless a constant among them makes it superfluous. -/
def toClause (form : NormalForm) (m : Numbering) (clause : Expression) :
    Except Faults (Option Clause) := do
  let items := clause.itemParts form
  let literals ← Faults.collect (items.map (itemLiteral m))
  return if items.any fun item => item.symbol == form.vacuous then none
    else some (.arranged (literals.filterMap id))

/-- The clause list of a formula.  Names without an index and whatever is neither a literal nor a
constant are reported. -/
def toClauses (form : NormalForm) (m : Numbering) (e : Expression) :
    Except Faults Clauses := do
  let clauses ← Faults.collectAll ((e.clauseParts form).map (toClause form m))
  return ⟨clauses.filterMap id⟩

end Expression

end ClauseForm
