import ClauseForm.Symbol

/-!
Expressions: formulas over named truth values and comparisons of integer terms.

An expression is a tree whose nodes carry symbols.  Where the operands of every node fit its symbol,
the tree is well-formed; `Expression.make?` builds only such nodes.
-/

namespace ClauseForm

/-- A tree of symbols. -/
inductive Expression where
  | node (symbol : Symbol) (operands : List Expression)

/-- Why a symbol can not stand over some operands. -/
inductive Misfit where
  | wrongArity (symbol : Symbol) (actual : Nat)
  | wrongCategory (symbol : Symbol) (expected : Category) (position : Nat)
deriving DecidableEq

/-- The message for a misfit. -/
def Misfit.message : Misfit → String
  | wrongArity s actual => s!"{s.name} expects {s.arity.text} children, but got {actual}"
  | wrongCategory s expected position =>
    s!"{s.name} expects a {expected.name} at position {position}"

namespace Expression

instance : Inhabited Expression := ⟨node .verum []⟩

/-- The symbol at the root. -/
def symbol : Expression → Symbol
  | node s _ => s

/-- The operands of the root, in order. -/
def operands : Expression → List Expression
  | node _ es => es

@[simp]
theorem symbol_node (s : Symbol) (es : List Expression) : (node s es).symbol = s := rfl

@[simp]
theorem operands_node (s : Symbol) (es : List Expression) : (node s es).operands = es := rfl

/-- The category of an expression is that of its root. -/
def category (e : Expression) : Category := e.symbol.category

/-- Decides whether an expression is a formula. -/
def isFormula (e : Expression) : Bool := e.category == .formula

/-- Decides whether an expression is a term. -/
def isTerm (e : Expression) : Bool := e.category == .term

/-- The kind of the values of an expression. -/
def valueKind (e : Expression) : ValueKind := e.category.valueKind

/-- The truth constant for a truth value. -/
def truth (b : Bool) : Expression := node (if b then .verum else .falsum) []

/-- A named truth value or its negation. -/
def literal (name : String) (positive : Bool) : Expression := node (.literal name positive) []

/-- A named integer. -/
def unknown (name : String) : Expression := node (.unknown name) []

/-- An integer constant. -/
def constant (value : Int64) : Expression := node (.constant value) []

/-- The reason why a symbol can not stand over operands, if there is one.  Their number is checked
first, then the operands from the left. -/
def misfit? (s : Symbol) (es : List Expression) : Option Misfit :=
  if !s.arity.accepts es.length then
    some (.wrongArity s es.length)
  else do
    let expected ← s.operandCategory
    let position ← es.findIdx? (·.category != expected)
    return .wrongCategory s expected position

/-- A node over operands that fit its symbol. -/
def make? (s : Symbol) (es : List Expression) : Except Misfit Expression :=
  match misfit? s es with
  | some m => .error m
  | none => .ok (node s es)

/-- The node with the same symbol over other operands. -/
def withOperands? (e : Expression) (es : List Expression) : Except Misfit Expression :=
  make? e.symbol es

/-- An expression is well-formed if at every node the operands fit the symbol. -/
inductive WellFormed : Expression → Prop where
  | node {s : Symbol} {es : List Expression} :
      misfit? s es = none → (∀ e ∈ es, WellFormed e) → WellFormed (node s es)

/-- What `make?` builds over well-formed operands is well-formed. -/
theorem wellFormed_of_make? {s : Symbol} {es : List Expression} {e : Expression}
    (hes : ∀ x ∈ es, WellFormed x) (h : make? s es = .ok e) : WellFormed e := by
  unfold make? at h
  split at h
  · contradiction
  · rename_i hs
    cases h
    exact .node hs hes

mutual

/-- The number of nodes of a tree. -/
def size : Expression → Nat
  | node _ es => sizes es + 1

/-- The number of nodes of a list of trees. -/
def sizes : List Expression → Nat
  | [] => 0
  | e :: es => size e + sizes es

end

@[simp]
theorem sizes_nil : sizes [] = 0 := rfl

@[simp]
theorem sizes_cons (e : Expression) (es : List Expression) :
    sizes (e :: es) = e.size + sizes es := rfl

@[simp]
theorem sizes_append (es fs : List Expression) : sizes (es ++ fs) = sizes es + sizes fs := by
  induction es with
  | nil => simp
  | cons e es ih => simp [ih, Nat.add_assoc]

@[simp]
theorem sizes_reverse (es : List Expression) : sizes es.reverse = sizes es := by
  induction es with
  | nil => rfl
  | cons e es ih => simp [ih, Nat.add_comm]

end Expression

end ClauseForm
