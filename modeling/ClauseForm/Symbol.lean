import ClauseForm.Value

/-!
The symbols of formulas and terms.

A symbol says of what category its node is, how many operands the node takes, of which category
these are, and what the node's value is once those of its operands are known.
-/

namespace ClauseForm

/-- What stands at a node of an expression. -/
inductive Symbol where
  /-- The formula that always holds. -/
  | verum
  /-- The formula that never holds. -/
  | falsum
  /-- A named truth value, or its negation. -/
  | literal (name : String) (positive : Bool)
  | not
  | and
  | or
  | implies
  | equivalent
  /-- A comparison of two terms. -/
  | compare (comparison : Comparison)
  /-- A named integer. -/
  | unknown (name : String)
  | constant (value : Int64)
  | sum
  | product
deriving DecidableEq, Hashable, Inhabited

/-- Formulas have truth values, terms are integers. -/
inductive Category where
  | formula
  | term
deriving DecidableEq, Hashable

namespace Category

/-- The word for a category in messages. -/
def name : Category → String
  | formula => "formula"
  | term => "term"

/-- The kind of the values of a category. -/
def valueKind : Category → ValueKind
  | formula => .truth
  | term => .integer

end Category

/-- How many operands a node takes. -/
inductive Arity where
  | exactly (n : Nat)
  | atLeast (n : Nat)
deriving DecidableEq, Hashable

namespace Arity

/-- Decides whether a number of operands is accepted. -/
def accepts : Arity → Nat → Bool
  | exactly n, count => count == n
  | atLeast n, count => decide (n ≤ count)

/-- The words for an arity in messages. -/
def text : Arity → String
  | exactly n => s!"exactly {n}"
  | atLeast n => s!"at least {n}"

end Arity

namespace Symbol

/-- The name of the operator that a symbol stands for. -/
def name : Symbol → String
  | verum => "True"
  | falsum => "False"
  | literal .. => "Literal"
  | not => "Not"
  | and => "And"
  | or => "Or"
  | implies => "Implies"
  | equivalent => "BiImplies"
  | compare c => c.name
  | unknown _ => "Variable"
  | constant _ => "Constant"
  | sum => "Add"
  | product => "Multiply"

/-- The category of the nodes with a symbol. -/
def category : Symbol → Category
  | unknown _ | constant _ | sum | product => .term
  | verum | falsum | literal .. | not | and | or | implies | equivalent | compare _ => .formula

/-- The number of operands of a symbol. -/
def arity : Symbol → Arity
  | verum | falsum | literal .. | unknown _ | constant _ => .exactly 0
  | not => .exactly 1
  | implies | equivalent | compare _ => .exactly 2
  | and | or => .atLeast 0
  | sum | product => .atLeast 1

/-- The category of the operands of a symbol, for symbols that take any. -/
def operandCategory : Symbol → Option Category
  | verum | falsum | literal .. | unknown _ | constant _ => none
  | not | and | or | implies | equivalent => some .formula
  | compare _ | sum | product => some .term

/-- Decides whether a symbol is one of the two truth constants. -/
def isTruthConstant : Symbol → Bool
  | verum | falsum => true
  | _ => false

/-- Decides whether a symbol is a literal. -/
def isLiteral : Symbol → Bool
  | literal .. => true
  | _ => false

/-- Decides whether a node with the symbol is a formula without formulas below it. -/
def isAtom : Symbol → Bool
  | verum | falsum | literal .. | compare _ => true
  | _ => false

/-- The value of a node from as many truth values as its symbol takes. -/
def ofTruths : Symbol → List Bool → Option Value
  | verum, [] => some (.truth true)
  | falsum, [] => some (.truth false)
  | not, [a] => some (.truth !a)
  | and, as => some (.truth (as.all id))
  | or, as => some (.truth (as.any id))
  | implies, [a, b] => some (.truth (!a || b))
  | equivalent, [a, b] => some (.truth (a == b))
  | _, _ => none

/-- The value of a node from as many integers as its symbol takes. -/
def ofIntegers : Symbol → List Int64 → Option Value
  | constant value, [] => some (.integer value)
  | compare c, [a, b] => some (.truth (c.holds a b))
  | sum, a :: as => some (.integer ((a :: as).foldl (· + ·) 0))
  | product, a :: as => some (.integer ((a :: as).foldl (· * ·) 1))
  | _, _ => none

/-- The value of a node from the values of its operands.  There is none for names, which need an
assignment, and for operands that do not fit. -/
def apply (s : Symbol) (operands : List Value) : Option Value :=
  match s with
  | verum | falsum | not | and | or | implies | equivalent => do
    s.ofTruths (← operands.mapM Value.truth?)
  | constant _ | compare _ | sum | product => do
    s.ofIntegers (← operands.mapM Value.integer?)
  | literal .. | unknown _ => none

end Symbol

end ClauseForm
