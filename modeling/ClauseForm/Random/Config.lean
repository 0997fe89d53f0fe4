/-!
What random formulas are made of: names, weights and sizes.
-/

namespace ClauseForm.Random

/-- The parts of random formulas.  A weight says how often something is chosen in comparison with
the others. -/
structure Config where
  seed : UInt64
  names : List String
  integerNames : List String
  constantWeight : Float32
  positiveWeight : Float32
  negativeWeight : Float32
  comparisonWeight : Float32
  orWeight : Float32
  andWeight : Float32
  notWeight : Float32
  impliesWeight : Float32
  equivalentWeight : Float32
  maxAndOperands : Nat
  maxOrOperands : Nat
  maxConstant : Int64

namespace Config

/-- The usual weights and sizes over some names. -/
def ofNames (names : List String) : Config where
  seed := 42
  names := names
  integerNames := ["n"]
  constantWeight := 0.1
  positiveWeight := 1
  negativeWeight := 1
  comparisonWeight := 0
  orWeight := 30
  andWeight := 30
  notWeight := 1
  impliesWeight := 1
  equivalentWeight := 1
  maxAndOperands := 5
  maxOrOperands := 5
  maxConstant := 5

/-- A number with zeros in front up to a width. -/
def padded (width n : Nat) : String :=
  let digits := toString n
  "".pushn '0' (width - digits.length) ++ digits

/-- The usual weights and sizes over a number of names `v0`, `v1` and so on, all of one length. -/
def ofCount (count : Nat) : Config :=
  let width := (toString (count - 1)).length
  ofNames ((List.range count).map fun n => "v" ++ padded width n)

end Config

/-- For each choice the sum of its share and the shares of all choices before it. -/
structure Thresholds where
  constant : Float32
  literal : Float32
  comparison : Float32
  or : Float32
  and : Float32
  not : Float32
  implies : Float32
  /-- The share of the positive literals among all literals. -/
  positive : Float32

/-- The thresholds of a configuration. -/
def Config.thresholds (c : Config) : Thresholds :=
  let total := c.constantWeight + c.positiveWeight + c.negativeWeight + c.comparisonWeight +
    c.orWeight + c.andWeight + c.notWeight + c.impliesWeight + c.equivalentWeight
  let constant := c.constantWeight / total
  let literal := constant + (c.positiveWeight + c.negativeWeight) / total
  let comparison := literal + c.comparisonWeight / total
  let or := comparison + c.orWeight / total
  let and := or + c.andWeight / total
  let not := and + c.notWeight / total
  let implies := not + c.impliesWeight / total
  let positive := c.positiveWeight / (c.positiveWeight + c.negativeWeight)
  ⟨constant, literal, comparison, or, and, not, implies, positive⟩

end ClauseForm.Random
