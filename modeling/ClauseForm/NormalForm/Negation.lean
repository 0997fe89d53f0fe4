import ClauseForm.Expression.Fold

/-!
Negation normal form: formulas of atoms, conjunctions and disjunctions only.

A formula is rewritten with two stacks, so it can have any depth: one of what is pending, one of the
results so far.  A visit goes with a sign, which says whether the formula or its negation is meant.
It gives a result, or announces visits of the operands and then connectives that are built from the
last results.  No result is missing for a well-formed expression, as `nnf?_of_wellFormed` says.
-/

namespace ClauseForm

namespace Expression

/-- The negation of an atom, which is an atom again. -/
def opposite : Expression → Expression
  | node .verum _ => .truth false
  | node .falsum _ => .truth true
  | node (.literal name positive) _ => .literal name !positive
  | node (.compare c) es => node (.compare c.opposite) es
  | e => e

/-! ### Rewriting -/

/-- What is pending: to visit a formula or its negation, or to build a node from so many results. -/
inductive Rewrite where
  | visit (e : Expression) (positive : Bool)
  | build (s : Symbol) (arity : Nat)

/-- What a visit comes to. -/
inductive Visited where
  | result (e : Expression)
  /-- Something is announced, the first of it to be done next. -/
  | announced (tasks : List Rewrite)
  /-- An operand is missing. -/
  | stuck

/-- The connective of a conjunction or a disjunction. -/
def junctor (conjunction : Bool) : Symbol := if conjunction then .and else .or

/-- Visits a formula or its negation.  An implication is a disjunction with the negated left side,
and an equivalence is a conjunction of two disjunctions.  Terms stay as they are. -/
def visit (e : Expression) (positive : Bool) : Visited :=
  match e.symbol, e.operands with
  | .verum, _ | .falsum, _ | .literal .., _ | .compare _, _ =>
    .result (if positive then e else e.opposite)
  | .unknown _, _ | .constant _, _ | .sum, _ | .product, _ => .result e
  | .not, f :: _ => .announced [.visit f !positive]
  | .and, es | .or, es =>
    .announced (es.map (.visit · positive) ++
      [.build (junctor ((e.symbol == .and) == positive)) es.length])
  | .implies, l :: r :: _ =>
    .announced [.visit l !positive, .visit r positive, .build (junctor !positive) 2]
  | .equivalent, l :: r :: _ =>
    .announced [.visit l false, .visit r positive, .build .or 2, .visit l true,
      .visit r !positive, .build .or 2, .build .and 2]
  | _, _ => .stuck

mutual

/-- A bound on what is to be done for a formula.  Operands are visited up to twice. -/
def work : Expression → Nat
  | node _ es => 2 * works es + 4

/-- The bound for a list of formulas. -/
def works : List Expression → Nat
  | [] => 0
  | e :: es => work e + works es

end

theorem work_pos (e : Expression) : 0 < e.work := by
  obtain ⟨s, es⟩ := e
  rw [work]
  omega

/-- A bound on what is to be done for all that is pending. -/
def Rewrite.weights : List Rewrite → Nat
  | [] => 0
  | .visit e _ :: pending => e.work + weights pending
  | .build _ _ :: pending => 1 + weights pending

@[simp]
theorem Rewrite.weights_append (tasks pending : List Rewrite) :
    weights (tasks ++ pending) = weights tasks + weights pending := by
  induction tasks with
  | nil => simp [weights]
  | cons task tasks ih => cases task <;> simp [weights, ih, Nat.add_assoc]

@[simp]
theorem Rewrite.weights_visits (es : List Expression) (positive : Bool) :
    weights (es.map (.visit · positive)) = works es := by
  induction es with
  | nil => rfl
  | cons e es ih => simp [weights, works, ih]

/-- A visit announces less than was pending with it. -/
theorem weights_of_announced {e : Expression} {positive : Bool} {tasks : List Rewrite}
    (h : e.visit positive = .announced tasks) : Rewrite.weights tasks < e.work := by
  obtain ⟨s, es⟩ := e
  rw [work]
  cases s with
  | not =>
    match es, h with
    | f :: es, h =>
      obtain rfl := Visited.announced.inj h
      simp only [Rewrite.weights, works]
      omega
  | and | or =>
    obtain rfl := Visited.announced.inj h
    simp only [operands_node, Rewrite.weights_append, Rewrite.weights_visits, Rewrite.weights]
    omega
  | implies | equivalent =>
    match es, h with
    | l :: r :: es, h =>
      obtain rfl := Visited.announced.inj h
      simp only [Rewrite.weights, works]
      omega
  | _ => cases h

/-- Does what is pending, with the results so far. -/
def rewriteFrom : List Rewrite → List Expression → Option Expression
  | [], [] => none
  | [], result :: _ => some result
  | .build s arity :: pending, results =>
    match Stacks.cut? arity [] results with
    | none => none
    | some (operands, rest) => rewriteFrom pending (node s operands :: rest)
  | .visit e positive :: pending, results =>
    match _ : e.visit positive with
    | .result result => rewriteFrom pending (result :: results)
    | .announced tasks => rewriteFrom (tasks ++ pending) results
    | .stuck => none
termination_by pending => Rewrite.weights pending
decreasing_by
  all_goals simp only [Rewrite.weights, Rewrite.weights_append]
  · omega
  · have := e.work_pos
    omega
  · have := weights_of_announced ‹_›
    omega

/-- The negation normal form of a formula, unless a result or an operand is missing. -/
def nnf? (e : Expression) : Option Expression := rewriteFrom [.visit e true] []

/-- The negation normal form of a formula. -/
def nnf (e : Expression) : Expression := e.nnf?.getD e

/-! ### Recognising the results -/

/-- Decides whether pending expressions consist of atoms, conjunctions and disjunctions.  The operands
of a node come in front of what was pending, the last one first. -/
def inNnfFrom : List Expression → Bool
  | [] => true
  | node s es :: pending =>
    match s with
    | .and | .or => inNnfFrom (es.reverse ++ pending)
    | s => if s.isAtom then inNnfFrom pending else false
termination_by pending => sizes pending
decreasing_by
  all_goals simp only [List.unattach_reverse, List.unattach_attach, sizes_append, sizes_reverse,
    sizes_cons, size]
  all_goals omega

/-- Decides whether a formula consists of atoms, conjunctions and disjunctions. -/
def inNnf (e : Expression) : Bool := inNnfFrom [e]

end Expression

end ClauseForm
