import ClauseForm.Expression.Fold
import ClauseForm.NormalForm

/-!
Recognising normal forms.

A formula is in normal form if it consists of atoms and the two connectives of the form, and the
connective that joins clauses never stands inside a clause.  It is a list of clauses if it has the
joining connective at the root, the connective of clauses everywhere below that, and atoms below
these.
-/

namespace ClauseForm

namespace Expression

/-- Decides whether an expression is exactly a list of clauses. -/
def isClauseList (form : NormalForm) (e : Expression) : Bool :=
  e.symbol == form.listSymbol &&
    e.operands.all fun clause =>
      clause.symbol == form.clauseSymbol && clause.operands.all fun atom => atom.symbol.isAtom

/-- Decides whether pending expressions are parts of a normal form, where each comes with the
knowledge whether it stands inside a clause.  The operands of a node come in front of what was
pending, the last one first. -/
def isNormalFrom (form : NormalForm) : List (Expression × Bool) → Bool
  | [] => true
  | (node s es, inside) :: pending =>
    if s.isAtom then
      isNormalFrom form pending
    else
      let joins := s == form.listSymbol
      let opens := s == form.clauseSymbol
      if !(joins || opens) || (joins && inside) then
        false
      else
        isNormalFrom form ((es.map fun e => (e, inside || opens)).reverse ++ pending)
termination_by pending => sizes (pending.map Prod.fst)
decreasing_by
  all_goals simp only [List.map_append, List.map_reverse, List.map_map, List.map_cons, sizes_append,
    sizes_reverse, sizes_cons, size, Function.comp_def, List.attach_map_subtype_val]
  all_goals omega

/-- Decides whether an expression is in normal form. -/
def isNormal (form : NormalForm) (e : Expression) : Bool :=
  e.isClauseList form || isNormalFrom form [(e, false)]

end Expression

end ClauseForm
