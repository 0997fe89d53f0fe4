import ClauseForm.Literals

/-!
Removing repetitions from collections of literals and refusing contradictory ones.

`Literals.reduced?` works for all kinds of collections.  `Clause.reduced?` does the same along the
order of a clause, in which equal literals are neighbours.  `Literals.cleaned?` takes the way that
belongs to the kind of the collection.
-/

namespace ClauseForm

namespace Literals

variable {o : LiteralOrder}

/-- Goes through literals behind those kept so far, the latest in front.  A repeated literal is
dropped; a literal whose negation was kept ends the search. -/
def reduceFrom : List Int → List Int → Option (List Int)
  | [], kept => some kept.reverse
  | l :: ls, kept =>
    if kept.contains (-l) then none
    else if kept.contains l then reduceFrom ls kept
    else reduceFrom ls (l :: kept)

/-- The collection with each literal once, or nothing if an index occurs in both signs. -/
def reduced? (c : Literals o) : Option (Literals o) := (reduceFrom c.toList []).map arranged

end Literals

namespace Clause

/-- Drops every literal that is equal to the one after it. -/
def dropRepeats : List Int → List Int
  | [] => []
  | [l] => [l]
  | l :: k :: ls => if l == k then dropRepeats (k :: ls) else l :: dropRepeats (k :: ls)

/-- The clause with each literal once, or nothing if an index occurs in both signs.  The negations
of the positive literals are searched for by halving. -/
def reduced? (c : Clause) : Option Clause :=
  let distinct : Clause := ⟨(dropRepeats c.toList).toArray⟩
  if distinct.positives.any fun l => distinct.contains (-l) then none else some distinct

end Clause

/-- The collection with each literal once, or nothing if an index occurs in both signs, in the way
of its kind. -/
def Literals.cleaned? {o : LiteralOrder} (c : Literals o) : Option (Literals o) :=
  match o with
  | .byValue => Clause.reduced? c
  | .asGiven | .byIndex => c.reduced?

end ClauseForm
