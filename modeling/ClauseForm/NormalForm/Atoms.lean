import ClauseForm.Expression.PreOrder
import ClauseForm.NormalForm.Negation
import ClauseForm.Numbering
import Std.Data.HashMap

/-!
Numbering the atoms of a formula.

An atom and its negation share a number: of each such pair one is positive and gets the number, the
other gets the negated number.  A comparison pairs up with the opposite comparison of the same
terms.

Behind the list of atoms there is a table with the number of each.  The two grow in step.
-/

namespace ClauseForm

/-- Decides which atom of a pair is the positive one. -/
def Symbol.isPositive : Symbol → Bool
  | .literal _ positive => positive
  | .compare .equal | .compare .less | .compare .lessOrEqual => true
  | .compare _ => false
  | _ => true

/-- Why an atom can not get a number. -/
inductive AtomError where
  /-- All numbers were in use. -/
  | tooMany
deriving DecidableEq

/-- The message for a lack of numbers. -/
def AtomError.message : AtomError → String
  | tooMany => "too many distinct atoms"

/-- A table has the numbers of the listed atoms, counted from 1, and no others. -/
def Atoms.InStep (atoms : Array Expression) (numbers : Std.HashMap Expression Nat) : Prop :=
  ∀ (a : Expression) (n : Nat), numbers[a]? = some n ↔ 0 < n ∧ atoms[n - 1]? = some a

/-- The positive atoms met so far, numbered from 1, with a table to find their numbers quickly. -/
structure Atoms where
  atoms : Array Expression
  numbers : Std.HashMap Expression Nat
  inStep : Atoms.InStep atoms numbers

namespace Atoms

theorem inStep_empty : InStep #[] ∅ := by
  simp [InStep]

/-- A new atom gets the number after all others. -/
theorem InStep.push {atoms : Array Expression} {numbers : Std.HashMap Expression Nat}
    {atom : Expression} (h : InStep atoms numbers) (hnew : numbers[atom]? = none) :
    InStep (atoms.push atom) (numbers.insert atom (atoms.size + 1)) := by
  intro a n
  have hold := h a n
  have hlast : n - 1 = atoms.size ∧ 0 < n ↔ n = atoms.size + 1 := by omega
  rw [Std.HashMap.getElem?_insert, Array.getElem?_push]
  by_cases hequal : atom = a
  · subst hequal
    -- No old number can be the one of the new atom.
    have hnone : ¬ (0 < n ∧ atoms[n - 1]? = some atom) := by
      rw [← hold, hnew]
      simp
    grind
  · grind

/-- No atoms at all. -/
def empty : Atoms := ⟨#[], ∅, inStep_empty⟩

/-- The number of a positive atom, which is the next one if the atom is new. -/
def number (t : Atoms) (atom : Expression) : Int × Atoms :=
  match h : t.numbers[atom]? with
  | some n => (n, t)
  | none =>
    ((t.atoms.size : Int) + 1,
      ⟨t.atoms.push atom, t.numbers.insert atom (t.atoms.size + 1), t.inStep.push h⟩)

/-- The literal for an atom. -/
def literalOf (t : Atoms) (atom : Expression) : Int × Atoms :=
  if atom.symbol.isPositive then
    t.number atom
  else
    let (n, t) := t.number atom.opposite
    (-n, t)

/-- The literal for an atom, where numbers are limited.  Whether there is a number left is checked
before the atom is looked up, so a full table turns down old atoms too. -/
def intern (t : Atoms) (atom : Expression) : Except AtomError (Int × Atoms) :=
  if t.atoms.size + 1 ≤ largestIndex then .ok (t.literalOf atom) else .error .tooMany

/-- The atom of a literal, if the table has its number. -/
def atomOf? (t : Atoms) (literal : Int) : Option Expression :=
  if literal = 0 then none
  else t.atoms[literal.natAbs - 1]?.map fun atom => if 0 < literal then atom else atom.opposite

/-- The atom of a literal of the table. -/
def atomOf (t : Atoms) (literal : Int) : Expression := (t.atomOf? literal).getD default

end Atoms

end ClauseForm
