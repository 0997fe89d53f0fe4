import ClauseForm.Expression
import ClauseForm.Random.Config
import ClauseForm.Random.Source

/-!
Random formulas of bounded depth.

Every formula is drawn from a source in a fixed order, so the same source gives the same formulas.
-/

namespace ClauseForm.Random

/-- Why a random choice is impossible. -/
inductive ChoiceError where
  /-- There is nothing to choose from. -/
  | nothing
  /-- A position that was drawn is outside of the list. -/
  | outside (position length : Nat)
  /-- The absolute value of an integer does not fit into 64 bits. -/
  | overflow
  /-- An expression that should be possible is not. -/
  | misfit (expectation : String) (misfit : Misfit)
deriving DecidableEq

/-- The message for an impossible choice. -/
def ChoiceError.message : ChoiceError → String
  | nothing => "empty range: Included(0)..Excluded(0)"
  | outside position length =>
    s!"index out of bounds: the len is {length} but the index is {position}"
  | overflow => "attempt to negate with overflow"
  | misfit expectation m => s!"{expectation}: {m.message}"

/-- Computations that draw random values and choose from lists.  A failure keeps the draws made
until then. -/
abbrev Sample (σ : Type) := ExceptT ChoiceError (StateM σ)

/-- What should be a possible expression. -/
def expect {σ : Type} (expectation : String) : Except Misfit Expression → Sample σ Expression
  | .ok e => return e
  | .error m => throw (.misfit expectation m)

/-- A random item of a list. -/
def Source.choose {σ α : Type} (source : Source σ) (items : List α) : Sample σ α :=
  if items.isEmpty then
    throw .nothing
  else do
    let i ← source.position items.length
    match items[i]? with
    | some item => return item
    | none => throw (.outside i items.length)

/-- What formulas are made of, and where the choices are drawn from. -/
structure Randomizer (σ : Type) where
  config : Config
  source : Source σ

namespace Randomizer

variable {σ : Type} (r : Randomizer σ)

/-- A random truth constant. -/
def constant : Sample σ Expression := do
  return .truth (← r.source.bool)

/-- A random name. -/
def name : Sample σ String := r.source.choose r.config.names

/-- A random name as a formula. -/
def positive : Sample σ Expression := do
  return .literal (← r.name) true

/-- A random name or its negation. -/
def literal : Sample σ Expression := do
  let positive := decide ((← r.source.share) < r.config.thresholds.positive)
  return .literal (← r.name) positive

/-- A random integer constant. -/
def integer : Sample σ Expression :=
  if r.config.maxConstant = Int64.minValue then
    throw .overflow
  else do
    return .constant (Int64.ofInt (← r.source.around r.config.maxConstant.toInt.natAbs))

/-- A random comparison of a linear term in one variable with a constant. -/
def comparison : Sample σ Expression := do
  let name ← r.source.choose r.config.integerNames
  let comparison ← r.source.choose Comparison.all
  let factor ← r.integer
  let product ← expect "two terms form a product"
    (Expression.make? .product [factor, .unknown name])
  let summand ← r.integer
  let sum ← expect "two terms form a sum" (Expression.make? .sum [product, summand])
  let right ← r.integer
  expect "two terms form a predicate" (Expression.make? (.compare comparison) [sum, right])

/-- A random formula without connectives. -/
def atom : Sample σ Expression := do
  let t := r.config.thresholds
  let x := (← r.source.share) * t.comparison
  if x < t.constant then r.constant
  else if x < t.literal then r.literal
  else r.comparison

/-- A number of random formulas. -/
def operands (count : Nat) (operand : Sample σ Expression) : Sample σ (List Expression) :=
  (List.replicate count ()).mapM fun _ => operand

/-- A connective over a fixed number of random formulas. -/
def connective (expectation : String) (s : Symbol) (count : Nat) (operand : Sample σ Expression) :
    Sample σ Expression := do
  expect expectation (Expression.make? s (← operands count operand))

/-- A connective over two or more random formulas, fewer than a maximum. -/
def junction (expectation : String) (s : Symbol) (maximum : Nat) (operand : Sample σ Expression) :
    Sample σ Expression := do
  connective expectation s (← r.source.between 2 (max maximum 3)) operand

/-- A negation of a random formula. -/
def negationOf (operand : Sample σ Expression) : Sample σ Expression :=
  connective "a negation of a formula" .not 1 operand

/-- An implication of random formulas. -/
def implicationOf (operand : Sample σ Expression) : Sample σ Expression :=
  connective "an implication of formulas" .implies 2 operand

/-- An equivalence of random formulas. -/
def equivalenceOf (operand : Sample σ Expression) : Sample σ Expression :=
  connective "an equivalence of formulas" .equivalent 2 operand

/-- A conjunction of random formulas. -/
def conjunctionOf (operand : Sample σ Expression) : Sample σ Expression :=
  r.junction "a conjunction of formulas" .and r.config.maxAndOperands operand

/-- A disjunction of random formulas. -/
def disjunctionOf (operand : Sample σ Expression) : Sample σ Expression :=
  r.junction "a disjunction of formulas" .or r.config.maxOrOperands operand

/-- A random formula with at most so many connectives on a path from the root. -/
def formula : Nat → Sample σ Expression
  | 0 => r.atom
  | depth + 1 => do
    let t := r.config.thresholds
    let x ← r.source.share
    if x < t.constant then r.constant
    else if x < t.literal then r.literal
    else if x < t.comparison then r.comparison
    else if x < t.or then r.disjunctionOf (formula depth)
    else if x < t.and then r.conjunctionOf (formula depth)
    else if x < t.not then negationOf (formula depth)
    else if x < t.implies then implicationOf (formula depth)
    else equivalenceOf (formula depth)

/-- A connective over random formulas of less depth, or an atom if there is no depth left. -/
def orAtom (above : Sample σ Expression → Sample σ Expression) : Nat → Sample σ Expression
  | 0 => r.atom
  | depth + 1 => above (r.formula depth)

/-- A random negation. -/
def negation : Nat → Sample σ Expression := r.orAtom negationOf

/-- A random implication. -/
def implication : Nat → Sample σ Expression := r.orAtom implicationOf

/-- A random equivalence. -/
def equivalence : Nat → Sample σ Expression := r.orAtom equivalenceOf

/-- A random conjunction. -/
def conjunction : Nat → Sample σ Expression := r.orAtom r.conjunctionOf

/-- A random disjunction. -/
def disjunction : Nat → Sample σ Expression := r.orAtom r.disjunctionOf

/-- A number of random formulas. -/
def formulas (count depth : Nat) : Sample σ (List Expression) := operands count (r.formula depth)

end Randomizer

end ClauseForm.Random
