/-!
Values, their two kinds, and the comparisons of integers.

Truth values and 64-bit integers are the only values.  Integer arithmetic wraps around, so the sum
and the product of two integers are integers again.
-/

namespace ClauseForm

/-- The kind of a value: a truth value or a 64-bit integer. -/
inductive ValueKind where
  | truth
  | integer
deriving DecidableEq, Hashable, Inhabited

/-- The word for a kind in messages and listings. -/
def ValueKind.name : ValueKind → String
  | .truth => "bool"
  | .integer => "int"

/-- A value: what a variable is assigned and what an expression evaluates to. -/
inductive Value where
  | truth (b : Bool)
  | integer (i : Int64)
deriving DecidableEq, Hashable, Inhabited

namespace Value

/-- The kind of a value. -/
def kind : Value → ValueKind
  | truth _ => .truth
  | integer _ => .integer

/-- The truth value, if the value is one. -/
def truth? : Value → Option Bool
  | truth b => some b
  | integer _ => none

/-- The integer, if the value is one. -/
def integer? : Value → Option Int64
  | truth _ => none
  | integer i => some i

/-- The text of a value: a truth value as the constant of a formula, an integer in decimal. -/
def text : Value → String
  | truth true => "$true"
  | truth false => "$false"
  | integer i => toString i.toInt

/-- An order of values for listings: truth values first, `false` before `true`, then the integers
in their own order. -/
def le : Value → Value → Bool
  | truth a, truth b => !a || b
  | truth _, integer _ => true
  | integer _, truth _ => false
  | integer a, integer b => decide (a ≤ b)

end Value

/-- The six comparisons of two integers. -/
inductive Comparison where
  | equal
  | notEqual
  | less
  | lessOrEqual
  | greater
  | greaterOrEqual
deriving DecidableEq, Hashable, Inhabited

namespace Comparison

/-- All comparisons. -/
def all : List Comparison := [equal, notEqual, less, lessOrEqual, greater, greaterOrEqual]

/-- The comparison that holds exactly when this one does not. -/
def opposite : Comparison → Comparison
  | equal => notEqual
  | notEqual => equal
  | less => greaterOrEqual
  | lessOrEqual => greater
  | greater => lessOrEqual
  | greaterOrEqual => less

/-- Decides a comparison of two integers. -/
def holds : Comparison → Int64 → Int64 → Bool
  | equal, a, b => a == b
  | notEqual, a, b => a != b
  | less, a, b => decide (a < b)
  | lessOrEqual, a, b => decide (a ≤ b)
  | greater, a, b => decide (b < a)
  | greaterOrEqual, a, b => decide (b ≤ a)

/-- How a comparison is written between its two terms. -/
def sign : Comparison → String
  | equal => "="
  | notEqual => "!="
  | less => "<"
  | lessOrEqual => "<="
  | greater => ">"
  | greaterOrEqual => ">="

/-- The name of a comparison. -/
def name : Comparison → String
  | equal => "Equal"
  | notEqual => "NotEqual"
  | less => "LessThan"
  | lessOrEqual => "LessEqual"
  | greater => "GreaterThan"
  | greaterOrEqual => "GreaterEqual"

@[simp]
theorem opposite_opposite (c : Comparison) : c.opposite.opposite = c := by
  cases c <;> rfl

private theorem le_eq_not_lt (a b : Int64) : decide (b ≤ a) = !decide (a < b) := by
  rw [← decide_not, decide_eq_decide, Int64.lt_iff_toInt_lt, Int64.le_iff_toInt_le, Int.not_lt]

/-- Of a comparison and its opposite exactly one holds. -/
theorem holds_opposite (c : Comparison) (a b : Int64) : c.opposite.holds a b = !c.holds a b := by
  cases c <;> simp [opposite, holds, bne, le_eq_not_lt]

end Comparison

end ClauseForm
