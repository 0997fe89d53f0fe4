import ClauseForm.Distinct
import ClauseForm.Expression.Fold
import ClauseForm.Literals.Reduced
import ClauseForm.NormalForm.Atoms
import ClauseForm.NormalForm.Negation
import ClauseForm.NormalForm.Shape
import ClauseForm.Supervision.Budget

/-!
Expanding a formula into a normal form.

A formula in negation normal form is folded into lists of clauses over numbered atoms: the
connective of the form appends lists, the other one multiplies them.  In a product every pair of
clauses is merged, contradictory clauses are dropped, and each clause is kept once.

The expansion runs in any monad and reports to an observer there: every node of the formula, every
multiplication, and every clause that it keeps.  Atoms are numbered as if numbers never ran out;
`normalFormM_of_few` compares this with limited numbers.
-/

namespace ClauseForm

namespace Expression

section Expansion

variable {m : Type → Type} [Monad m]

/-- Merges two clauses and adds the result to a product, unless it is contradictory or there
already. -/
@[specialize]
def addProduct (observer : Observer m) (product : Distinct Clause) (left right : Clause) :
    m (Distinct Clause) :=
  match Clause.reduced? (.arranged (left.toList ++ right.toList)) with
  | none => pure product
  | some clause =>
    match product.add? clause with
    | none => pure product
    | some product => do
      observer.clause clause.size
      pure product

/-- The product of two lists of clauses. -/
@[specialize]
def multiply (observer : Observer m) (lefts rights : List Clause) : m (List Clause) := do
  observer.distribution
  let product ← lefts.foldlM (fun product left =>
    rights.foldlM (fun product right => addProduct observer product left right) product)
    Distinct.empty
  pure product.toList

/-- The product of any number of lists of clauses, from the left. -/
@[specialize]
def productOf (observer : Observer m) : List (List Clause) → m (List Clause)
  | [] => pure [Literals.empty]
  | factor :: factors => factors.foldlM (multiply observer) factor

/-- The clauses of a node from those of its operands. -/
@[specialize]
def nodeClauses (form : NormalForm) (observer : Observer m) (e : Expression)
    (parts : List (List Clause)) : StateT Atoms m (List Clause) := do
  observer.checkpoint
  match e.symbol with
  | .verum | .falsum => pure (if e.symbol == form.vacuous then [] else [Literals.empty])
  | .literal .. | .compare _ =>
    observer.clause 1
    let literal ← modifyGet fun atoms => atoms.literalOf e
    pure [Literals.arranged [literal]]
  | .and | .or =>
    if e.symbol == form.listSymbol then pure parts.flatten else liftM (productOf observer parts)
  | _ => pure []

/-- The formula of a list of clauses.  An empty clause makes all others superfluous; the atoms of a
clause are put in the order of their numbers. -/
def ofClauses (form : NormalForm) (atoms : Atoms) (clauses : List Clause) : Expression :=
  if clauses.any Literals.isEmpty then
    node form.listSymbol [node form.clauseSymbol []]
  else
    node form.listSymbol <| (Distinct.ofList clauses).toList.map fun clause =>
      node form.clauseSymbol <|
        (clause.toList.mergeSort fun a b => decide (a.natAbs ≤ b.natAbs)).map atoms.atomOf

/-- The list of clauses, as a formula, that a formula in negation normal form amounts to. -/
@[specialize]
def clauseListM (form : NormalForm) (observer : Observer m) (e : Expression) : m Expression := do
  let (clauses, atoms) ← (e.foldM (nodeClauses form observer)).run .empty
  pure (ofClauses form atoms clauses)

/-- The normal form of an expression, reported to an observer.  Terms and lists of clauses
stay as they are. -/
@[specialize]
def normalFormM (form : NormalForm) (observer : Observer m) (e : Expression) : m Expression :=
  if e.isTerm || e.isClauseList form then pure e
  else clauseListM form observer (if e.isNormal form then e else e.nnf)

end Expansion

/-- The normal form of an expression. -/
def normalForm (form : NormalForm) (e : Expression) : Expression :=
  Id.run (e.normalFormM form Observer.silent)

/-- The normal form of an expression under supervision. -/
def supervisedNormalForm {σ : Type} (form : NormalForm) (observer : Observer (Supervised σ))
    (e : Expression) : Supervised σ Expression :=
  e.normalFormM form observer

/-- The normal form of an expression under a supervisor in some state. -/
def normalFormUnder {σ : Type} (s : Supervisor σ) (state : σ) (form : NormalForm) (e : Expression) :
    Except Breakdown (Except ExpansionError Expression × σ) :=
  s.supervise state fun observer => e.supervisedNormalForm form observer

/-- The normal form of an expression, if the clauses made on the way have no more literals in total
than a limit. -/
def normalFormWithin (limit : Option Nat) (form : NormalForm) (e : Expression) :
    Except ExpansionError Expression :=
  match limit with
  | none => .ok (e.normalForm form)
  | some limit =>
    ((e.supervisedNormalForm form Budget.supervisor.observer).run.run
      (Budget.new limit none)).1

end Expression

end ClauseForm
