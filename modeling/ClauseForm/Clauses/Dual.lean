import ClauseForm.Clauses
import ClauseForm.Distinct
import ClauseForm.Literals.Reduced
import ClauseForm.Supervision

/-!
Taking a list of clauses from one normal form to the other.

Every choice of one literal from each clause is a clause of the result.  Choices with an index in
both signs are left out, and equal choices are kept once, at their first place.

The choices are counted through: a selection has a position in each clause, and moves on like a
counter whose digits have different bases.
-/

namespace ClauseForm

namespace Clauses

/-- The literals at the selected positions of some clauses. -/
def picked (cs : List Clause) (selection : List Nat) : List Int :=
  (cs.zip selection).filterMap fun (c, i) => c.toArray[i]?

/-- Moves a selection on, the position in the last clause fastest: a position that leaves its clause
goes back to the start, and the one in front of it moves on.  Tells whether there was another
selection. -/
def advance : List Clause → List Nat → Bool × List Nat
  | c :: cs, i :: selection =>
    match advance cs selection with
    | (true, rest) => (true, i :: rest)
    | (false, rest) => if i + 1 < c.size then (true, (i + 1) :: rest) else (false, 0 :: rest)
  | _, selection => (false, selection)

/-- A bound on the number of selections. -/
def span : List Clause → Nat
  | [] => 1
  | c :: cs => max c.size 1 * span cs

/-- The number of selections behind one. -/
def remaining : List Clause → List Nat → Nat
  | c :: cs, i :: selection => (c.size - 1 - i) * span cs + remaining cs selection
  | _, _ => 0

theorem span_pos (cs : List Clause) : 0 < span cs := by
  induction cs with
  | nil => exact Nat.one_pos
  | cons c cs ih => exact Nat.mul_pos (by omega) ih

theorem remaining_lt_span (cs : List Clause) (selection : List Nat) :
    remaining cs selection < span cs := by
  fun_induction remaining cs selection with
  | case1 c cs i selection ih =>
    have digits : c.size - 1 - i + 1 ≤ max c.size 1 := by omega
    have bound := Nat.mul_le_mul_right (span cs) digits
    rw [Nat.succ_mul] at bound
    rw [span]
    omega
  | case2 cs => exact span_pos cs

theorem remaining_advance {cs : List Clause} {selection next : List Nat}
    (h : advance cs selection = (true, next)) : remaining cs next < remaining cs selection := by
  fun_induction advance cs selection generalizing next with
  | case1 c cs i selection rest hrest ih =>
    obtain rfl := (Prod.mk.inj h).2
    have fewer := ih hrest
    simp only [remaining]
    omega
  | case2 c cs i selection rest hrest hinside =>
    obtain rfl := (Prod.mk.inj h).2
    have below := remaining_lt_span cs rest
    have digit : c.size - 1 - i = c.size - 1 - (i + 1) + 1 := by omega
    simp only [remaining]
    rw [digit, Nat.succ_mul]
    omega
  | case3 => exact absurd (Prod.mk.inj h).1 Bool.false_ne_true
  | case4 => exact absurd (Prod.mk.inj h).1 Bool.false_ne_true

section Choices

variable {m : Type → Type} [Monad m]

/-- Visits a selection and all behind it. -/
@[specialize]
def visitSelections {α : Type} (visit : α → List Int → m α) (cs : List Clause)
    (selection : List Nat) (state : α) : m α := do
  let state ← visit state (picked cs selection)
  match _ : advance cs selection with
  | (true, next) => visitSelections visit cs next state
  | (false, _) => pure state
termination_by remaining cs selection
decreasing_by exact remaining_advance ‹_›

/-- Adds a choice to those found so far, unless it is contradictory or there already. -/
@[specialize]
def addChoice (observer : Observer m) (found : Distinct Clause) (chosen : List Int) :
    m (Distinct Clause) := do
  observer.checkpoint
  match Clause.reduced? (.arranged chosen) with
  | none => pure found
  | some clause =>
    match found.add? clause with
    | none => pure found
    | some found =>
      observer.clause clause.size
      pure found

/-- The list in the other normal form, reported to an observer: every choice, and every clause that
is kept.  With an empty clause there is nothing to choose. -/
@[specialize]
def toDualM (observer : Observer m) (l : Clauses) : m Clauses :=
  if l.toList.any Literals.isEmpty then
    pure empty
  else do
    let found ←
      visitSelections (addChoice observer) l.toList (List.replicate l.size 0) Distinct.empty
    pure ⟨found.toList⟩

end Choices

/-- The list in the other normal form. -/
def toDual (l : Clauses) : Clauses := Id.run (l.toDualM Observer.silent)

/-- The list in the other normal form, under supervision. -/
def supervisedDual {σ : Type} (observer : Observer (Supervised σ)) (l : Clauses) :
    Supervised σ Clauses :=
  l.toDualM observer

/-- The list in the other normal form, under a supervisor in some state. -/
def toDualUnder {σ : Type} (s : Supervisor σ) (state : σ) (l : Clauses) :
    Except Breakdown (Except ExpansionError Clauses × σ) :=
  s.supervise state fun observer => l.supervisedDual observer

end Clauses

end ClauseForm
