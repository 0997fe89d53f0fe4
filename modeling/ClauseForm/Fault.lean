import ClauseForm.Symbol

/-!
Faults: what can be wrong with names, indices, literals and values.

An operation that fails reports all of its faults together, in the order in which it meets them; a
failure holds at least one.  `collect_eq_ok_iff` says that nothing is reported only if nothing is
wrong.
-/

namespace ClauseForm

/-- One thing that is wrong. -/
inductive Fault where
  /-- A name has no index. -/
  | unknownName (name : String)
  /-- An index has no name. -/
  | unknownIndex (index : Int)
  /-- A literal is zero. -/
  | zeroLiteral (position : Nat)
  /-- A literal or its negation does not fit into 32 bits. -/
  | hugeLiteral (position : Nat)
  /-- A name has an integer where a truth value is needed. -/
  | noTruthValue (name : String) (value : Value)
  /-- A name is given a second value or index. -/
  | nameTaken (name : String)
  /-- An index is given a second name. -/
  | indexTaken (index : Int)
  /-- A symbol stands where only literals and constants may. -/
  | notInClause (symbol : Symbol)
  /-- A variable has no value. -/
  | unassigned (name : String)
  /-- A variable has a value of the wrong kind. -/
  | mistyped (name : String) (expected actual : ValueKind)
  /-- A symbol has no value, or none of the kind that is needed. -/
  | noValue (symbol : Symbol)
deriving DecidableEq

/-- The message for one fault. -/
def Fault.message : Fault → String
  | unknownName name => s!"no index for variable {name}"
  | unknownIndex index => s!"no variable for index {index}"
  | zeroLiteral position => s!"index 0 at position {position}"
  | hugeLiteral position => s!"literal out of range at position {position}"
  | noTruthValue name value => s!"variable {name} has the non-boolean value {value.text}"
  | nameTaken name => s!"variable {name} is assigned twice"
  | indexTaken index => s!"index {index} is assigned twice"
  | notInClause symbol => s!"{symbol.name} can not be part of a clause"
  | unassigned name => s!"variable {name} is unassigned"
  | mistyped name expected actual =>
    s!"variable {name} must be of type {expected.name}, but is of type {actual.name}"
  | noValue symbol => s!"{symbol.name} can not be evaluated"

/-- All faults of a failure, at least one. -/
structure Faults where
  first : Fault
  others : List Fault
deriving DecidableEq

namespace Faults

/-- A failure with a single fault. -/
def single (f : Fault) : Faults := ⟨f, []⟩

/-- The faults in order. -/
def toList (fs : Faults) : List Fault := fs.first :: fs.others

/-- The message for all faults together. -/
def message (fs : Faults) : String := String.intercalate "; " (fs.toList.map Fault.message)

/-- A value, barring faults. -/
def barring {α : Type} (faults : List Fault) (value : α) : Except Faults α :=
  match faults with
  | [] => .ok value
  | f :: fs => .error ⟨f, fs⟩

/-- The values of some results, or the faults of all that failed. -/
def collect {α : Type} (results : List (Except Fault α)) : Except Faults (List α) :=
  barring (results.filterMap fun | .error f => some f | .ok _ => none)
    (results.filterMap fun | .error _ => none | .ok a => some a)

/-- The values of some results, or all faults of all that failed. -/
def collectAll {α : Type} (results : List (Except Faults α)) : Except Faults (List α) :=
  barring (results.flatMap fun | .error fs => fs.toList | .ok _ => [])
    (results.filterMap fun | .error _ => none | .ok a => some a)

/-- A value comes out if there are no faults. -/
theorem barring_eq_ok_iff {α : Type} {faults : List Fault} {value a : α} :
    barring faults value = .ok a ↔ faults = [] ∧ value = a := by
  cases faults <;> simp [barring]

/-- A failure holds exactly the faults. -/
theorem barring_eq_error_iff {α : Type} {faults : List Fault} {value : α} {fs : Faults} :
    barring faults value = .error fs ↔ faults = fs.toList := by
  cases fs
  cases faults <;> simp [barring, toList]

/-- Results are collected if all of them are values. -/
theorem collect_eq_ok_iff {α : Type} {results : List (Except Fault α)} {as : List α} :
    collect results = .ok as ↔ results = as.map .ok := by
  rw [collect, barring_eq_ok_iff]
  induction results generalizing as with
  | nil => cases as <;> simp
  | cons r results ih =>
    cases r with
    | error f => cases as <;> simp
    | ok b => cases as <;> simp [← ih, and_left_comm]

/-- Results are collected if all of them are values. -/
theorem collectAll_eq_ok_iff {α : Type} {results : List (Except Faults α)} {as : List α} :
    collectAll results = .ok as ↔ results = as.map .ok := by
  rw [collectAll, barring_eq_ok_iff]
  induction results generalizing as with
  | nil => cases as <;> simp
  | cons r results ih =>
    cases r with
    | error fs => cases as <;> simp [toList]
    | ok b => cases as <;> simp [← ih, and_left_comm]

end Faults

end ClauseForm
