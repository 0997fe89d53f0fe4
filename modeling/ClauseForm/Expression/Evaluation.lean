import ClauseForm.Bindings
import ClauseForm.Expression.Contents

/-!
Evaluating an expression under values for its variables.

All variables are looked at first; if some have no value or one of the wrong kind, all of these are
reported and nothing is evaluated.  Otherwise every node is evaluated after its operands.
-/

namespace ClauseForm

/-- What is wrong with the value of a variable, if anything is. -/
def Bindings.faultOf? (v : Bindings) (x : Variable) : Option Fault :=
  match v.get? x.name with
  | none => some (.unassigned x.name)
  | some value =>
    if value.kind == x.kind then none else some (.mistyped x.name x.kind value.kind)

namespace Expression

/-- The value of a node from the values of its operands, where a name has the value assigned. -/
def nodeValue? (v : Bindings) (s : Symbol) (operands : List Value) : Option Value :=
  match s with
  | .literal name positive => ((v.get? name).bind Value.truth?).map fun b => .truth (b == positive)
  | .unknown name => v.get? name
  | s => s.apply operands

/-- The value of an expression, or all that is wrong with the values of its variables. -/
def evaluate (e : Expression) (v : Bindings) : Except Faults Value := do
  Faults.barring (e.vars.filterMap v.faultOf?) ()
  foldM (m := Except Faults) (fun node operands =>
    match nodeValue? v node.symbol operands with
    | some value => .ok value
    | none => .error (.single (.noValue node.symbol))) e

/-- Decides whether a formula holds.  A term has no truth value. -/
def holds (e : Expression) (v : Bindings) : Except Faults Bool := do
  match (← e.evaluate v).truth? with
  | some b => .ok b
  | none => .error (.single (.noValue e.symbol))

end Expression

end ClauseForm
