import ClauseForm.Literals.Search
import ClauseForm.Numbering

/-!
Collections of literals: assignments, clauses and solutions.

A literal is a positive index or the negation of one.  The three kinds of collections differ in the
order of their literals: an assignment keeps them as given, a clause sorts them by value, a solution
by index.  A literal may occur repeatedly and in both signs.
-/

namespace ClauseForm

/-- How a collection orders its literals. -/
inductive LiteralOrder where
  | asGiven
  | byValue
  | byIndex
deriving DecidableEq

namespace LiteralOrder

/-- The order of two literals by index, the negative one first. -/
def compareByIndex (a b : Int) : Ordering := (compare a.natAbs b.natAbs).then (compare a b)

/-- Puts literals into the order of a kind of collection. -/
def arrange : LiteralOrder → List Int → List Int
  | asGiven, ls => ls
  | byValue, ls => ls.mergeSort fun a b => decide (a ≤ b)
  | byIndex, ls => ls.mergeSort fun a b => (compareByIndex a b).isLE

/-- Arranging neither drops nor adds a literal. -/
theorem arrange_perm (o : LiteralOrder) (ls : List Int) : (o.arrange ls).Perm ls := by
  cases o with
  | asGiven => exact .refl ls
  | byValue => exact List.mergeSort_perm ..
  | byIndex => exact List.mergeSort_perm ..

end LiteralOrder

/-- A collection of literals in the order of its kind. -/
structure Literals (o : LiteralOrder) where
  toArray : Array Int
deriving DecidableEq, Hashable

/-- Literals in the order in which they were assigned. -/
abbrev Assignment := Literals .asGiven

/-- Literals by value. -/
abbrev Clause := Literals .byValue

/-- Literals by index. -/
abbrev Solution := Literals .byIndex

namespace Literals

variable {o : LiteralOrder}

/-- No literals at all. -/
def empty : Literals o := ⟨#[]⟩

instance : Inhabited (Literals o) := ⟨empty⟩

/-- The literals in the order of the collection. -/
def toList (c : Literals o) : List Int := c.toArray.toList

/-- The collection of some literals. -/
def arranged (ls : List Int) : Literals o := ⟨(o.arrange ls).toArray⟩

@[simp]
theorem toList_arranged (ls : List Int) : (arranged ls : Literals o).toList = o.arrange ls := rfl

/-- A collection holds the literals that it is made from. -/
theorem mem_toList_arranged {l : Int} {ls : List Int} :
    l ∈ (arranged ls : Literals o).toList ↔ l ∈ ls :=
  (o.arrange_perm ls).mem_iff

/-- Checks the literal at a position: it must be neither zero nor without a negation. -/
def checked (literal : Int) (position : Nat) : Except Fault Int :=
  if literal == 0 then .error (.zeroLiteral position)
  else if largestIndex < literal.natAbs then .error (.hugeLiteral position)
  else .ok literal

/-- The collection of some integers, if all of them can be literals. -/
def ofList? (ls : List Int) : Except Faults (Literals o) := do
  return arranged (← Faults.collect (ls.zipIdx.map fun (l, i) => checked l i))

/-- The number of literals. -/
def size (c : Literals o) : Nat := c.toArray.size

/-- Decides whether there are no literals. -/
def isEmpty (c : Literals o) : Bool := c.toArray.isEmpty

/-- A position of a literal.  Ordered collections are searched by halving. -/
def indexOf? (c : Literals o) (literal : Int) : Option Nat :=
  match o with
  | .asGiven => c.toArray.idxOf? literal
  | .byValue => search c.toArray fun l => compare l literal
  | .byIndex => search c.toArray fun l => LiteralOrder.compareByIndex l literal

/-- Decides whether a literal occurs. -/
def contains (c : Literals o) (literal : Int) : Bool := (c.indexOf? literal).isSome

/-- Decides whether all of some literals occur. -/
def containsAll (c : Literals o) (ls : List Int) : Bool := ls.all c.contains

/-- Decides whether any of some literals occurs. -/
def containsAny (c : Literals o) (ls : List Int) : Bool := ls.any c.contains

/-- Decides whether an index occurs in either sign. -/
def containsIndex (c : Literals o) (index : Int) : Bool := c.contains index || c.contains (-index)

/-- The positive literals. -/
def positives (c : Literals o) : List Int := c.toList.filter fun l => decide (0 < l)

/-- The negative literals. -/
def negatives (c : Literals o) : List Int := c.toList.filter fun l => decide (l < 0)

/-- The collection of the negated literals.  The order of a clause turns around, so the literals of a
clause are taken from behind. -/
def negate (c : Literals o) : Literals o :=
  match o with
  | .byValue => ⟨c.toArray.reverse.map fun l => -l⟩
  | .asGiven | .byIndex => arranged (c.toList.map fun l => -l)

end Literals

namespace Solution

/-- The truth value that a solution gives to an index, in either sign. -/
def valueOf? (s : Solution) (index : Int) : Option Bool := do
  let position ← Literals.search s.toArray fun l => compare l.natAbs index.natAbs
  let literal ← s.toArray[position]?
  return decide (0 < literal)

/-- The literals of a solution as an assignment. -/
def toAssignment (s : Solution) : Assignment := ⟨s.toArray⟩

end Solution

end ClauseForm
