import ClauseForm.Expression.Fold
import ClauseForm.Expression.PreOrder

/-!
What occurs in an expression: its variables, names and constants, each listed once, in the order of
their first occurrence from the left; and its depth and number of nodes.
-/

namespace ClauseForm

/-- A name together with the kind of the values it stands for. -/
structure Variable where
  name : String
  kind : ValueKind
deriving DecidableEq, Hashable

namespace Symbol

/-- The variable that a symbol stands for.  A literal stands for a truth value, a name inside a term
for an integer. -/
def occurrence? : Symbol → Option Variable
  | literal name _ => some ⟨name, .truth⟩
  | unknown name => some ⟨name, .integer⟩
  | _ => none

/-- The value that a constant stands for. -/
def constantValue? : Symbol → Option Value
  | verum => some (.truth true)
  | falsum => some (.truth false)
  | constant value => some (.integer value)
  | _ => none

end Symbol

namespace Expression

/-- Every occurrence of a variable, from left to right. -/
def occurrences (e : Expression) : List Variable :=
  e.preOrder.filterMap fun n => n.symbol.occurrence?

/-- The variables.  A name that is used for both kinds counts as two. -/
def vars (e : Expression) : List Variable := e.occurrences.eraseDups

/-- The names of all variables. -/
def names (e : Expression) : List String := (e.occurrences.map Variable.name).eraseDups

/-- The names of the variables for truth values. -/
def truthNames (e : Expression) : List String :=
  ((e.occurrences.filter fun v => v.kind == .truth).map Variable.name).eraseDups

/-- The values of the constants. -/
def constantValues (e : Expression) : List Value :=
  (e.preOrder.filterMap fun n => n.symbol.constantValue?).eraseDups

/-- The number of nodes on the longest path from the root. -/
def depth (e : Expression) : Nat := e.fold fun _ depths => depths.foldl max 0 + 1

/-- The number of nodes. -/
def nodeCount (e : Expression) : Nat := e.preOrder.length

end Expression

end ClauseForm
