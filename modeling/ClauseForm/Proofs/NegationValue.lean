import ClauseForm.Proofs.FirstOccurrences
import ClauseForm.Proofs.Negation

/-!
Negation normal form keeps values, faults and the order of the variables.

Evaluation looks at all variables in the order of their first occurrence before it computes
anything.  Both normal forms of a formula have exactly its variables in that order, although the
operands of an equivalence occur twice in them; so `evaluate_nnf` holds for all bindings, also where
some variables have no value or one of the wrong kind.
-/

namespace ClauseForm

namespace Expression

/-- The variables of a connective are those of its operands, from left to right. -/
theorem vars_node {s : Symbol} (hs : s.occurrence? = none) (es : List Expression) :
    (node s es).vars = (es.flatMap vars).eraseDups := by
  rw [vars, occurrences_node, hs]
  exact (eraseDups_flatMap_eraseDups occurrences es).symm

theorem vars_of_single {s : Symbol} (hs : s.occurrence? = none) (e : Expression) :
    (node s [e]).vars = e.vars := by
  rw [vars_node hs, List.flatMap_singleton, vars, eraseDups_eraseDups]

theorem vars_of_pair {s : Symbol} (hs : s.occurrence? = none) (l r : Expression) :
    (node s [l, r]).vars = (l.vars ++ r.vars).eraseDups := by
  rw [vars_node hs, List.flatMap_cons, List.flatMap_singleton]

/-- Two halves over the same variables have these variables together. -/
theorem vars_of_halves {s t : Symbol} (hs : s.occurrence? = none) (ht : t.occurrence? = none)
    {a b c d : Expression} (hleft : c.vars = a.vars) (hright : d.vars = b.vars) :
    (node s [node t [a, b], node t [c, d]]).vars = (a.vars ++ b.vars).eraseDups := by
  rw [vars_of_pair hs, vars_of_pair ht, vars_of_pair ht, hleft, hright, eraseDups_append_self,
    eraseDups_eraseDups]

/-- Both normal forms have the variables of the formula, in the same order. -/
structure Polar.KeepsVars (p : Polar) (e : Expression) : Prop where
  positive : p.positive.vars = e.vars
  negative : p.negative.vars = e.vars

namespace Polar.KeepsVars

theorem atom {a : Expression} (ha : ProperAtom a) : KeepsVars ⟨a, a.opposite⟩ a where
  positive := rfl
  negative := congrArg List.eraseDups ha.occurrences_opposite

theorem constant {s t : Symbol} (hs : s.occurrence? = none) (ht : t.occurrence? = none) :
    KeepsVars ⟨node s [], node t []⟩ (node s []) where
  positive := rfl
  negative := by rw [vars_node ht, vars_node hs]

theorem not {p : Polar} {e : Expression} (he : p.KeepsVars e) :
    KeepsVars ⟨p.negative, p.positive⟩ (node .not [e]) where
  positive := by rw [vars_of_single rfl, he.negative]
  negative := by rw [vars_of_single rfl, he.positive]

/-- A connective keeps the variables if it is replaced by others over normal forms of the same
operands. -/
theorem junction {f : Expression → Polar} {es : List Expression} {s t u : Symbol}
    (hs : s.occurrence? = none) (ht : t.occurrence? = none) (hu : u.occurrence? = none)
    (hes : ∀ e ∈ es, (f e).KeepsVars e) :
    KeepsVars ⟨node t (es.map fun e => (f e).positive), node u (es.map fun e => (f e).negative)⟩
      (node s es) where
  positive := by
    rw [vars_node hs, vars_node ht, List.flatMap_map]
    exact congrArg List.eraseDups (List.flatMap_congr fun e he => (hes e he).positive)
  negative := by
    rw [vars_node hs, vars_node hu, List.flatMap_map]
    exact congrArg List.eraseDups (List.flatMap_congr fun e he => (hes e he).negative)

variable {p q : Polar} {l r : Expression}

theorem implies (hl : p.KeepsVars l) (hr : q.KeepsVars r) :
    KeepsVars ⟨node .or [p.negative, q.positive], node .and [p.positive, q.negative]⟩
      (node .implies [l, r]) where
  positive := by rw [vars_of_pair rfl, vars_of_pair rfl, hl.negative, hr.positive]
  negative := by rw [vars_of_pair rfl, vars_of_pair rfl, hl.positive, hr.negative]

theorem equivalent (hl : p.KeepsVars l) (hr : q.KeepsVars r) :
    KeepsVars
      ⟨node .and [node .or [p.negative, q.positive], node .or [p.positive, q.negative]],
        node .and [node .or [p.negative, q.negative], node .or [p.positive, q.positive]]⟩
      (node .equivalent [l, r]) where
  positive := by
    rw [vars_of_halves rfl rfl (hl.positive.trans hl.negative.symm)
      (hr.negative.trans hr.positive.symm), vars_of_pair rfl, hl.negative, hr.positive]
  negative := by
    rw [vars_of_halves rfl rfl (hl.positive.trans hl.negative.symm)
      (hr.positive.trans hr.negative.symm), vars_of_pair rfl, hl.negative, hr.negative]

end Polar.KeepsVars

/-- The fold keeps the variables of every formula in both polarities. -/
theorem fold_polar_keepsVars {e : Expression} (he : FormulaTree e) :
    (e.fold polar).KeepsVars e := by
  induction he with
  | verum | falsum =>
      rw [fold_node]
      exact .constant rfl rfl
  | literal name positive =>
      rw [fold_node]
      exact .atom (.literal name positive)
  | compare c hl hr =>
      rw [fold_node]
      exact .atom (.compare c hl hr)
  | not he ih =>
      rw [fold_node]
      exact .not ih
  | and hes ih =>
      rw [fold_node]
      simpa [polar, Function.comp_def] using
        Polar.KeepsVars.junction (s := .and) (t := .and) (u := .or) rfl rfl rfl ih
  | or hes ih =>
      rw [fold_node]
      simpa [polar, Function.comp_def] using
        Polar.KeepsVars.junction (s := .or) (t := .or) (u := .and) rfl rfl rfl ih
  | implies hl hr ihl ihr =>
      rw [fold_node]
      exact .implies ihl ihr
  | equivalent hl hr ihl ihr =>
      rw [fold_node]
      exact .equivalent ihl ihr

theorem vars_nnf {e : Expression} (he : FormulaTree e) : e.nnf.vars = e.vars := by
  rw [nnf_of_formula he]
  exact (fold_polar_keepsVars he).positive

/-- An expression and its negation normal form have the same value or the same faults under all
bindings, and the same variables. -/
theorem evaluate_nnf {e : Expression} (he : e.WellFormed) :
    (∀ v : Bindings, e.nnf.evaluate v = e.evaluate v) ∧ e.nnf.vars = e.vars := by
  rcases he.formula_or_term with hformula | hterm
  · have htree := (nnfTree_nnf hformula).formulaTree
    refine ⟨?_, vars_nnf hformula⟩
    intro v
    rw [evaluate_eq htree.wellFormed, evaluate_eq he, meaning_of_formula htree,
      meaning_of_formula hformula, truthIn_nnf hformula, vars_nnf hformula]
  · rw [nnf_of_term hterm]
    exact ⟨fun _ => rfl, rfl⟩

namespace NegationValueWitness

/-- A negated equivalence of a disjunction with a comparison and a negated name. -/
def sample : Expression :=
  node .not [node .equivalent [
    node .or [literal "b" true, node (.compare .lessOrEqual) [unknown "x", constant 2]],
    node .not [literal "a" true]]]

/-- One variable has no value, and another one of the wrong kind. -/
def values : Bindings := ⟨[("x", .truth true), ("a", .truth false)]⟩

theorem evaluate_nnf_sample :
    sample.WellFormed ∧
      sample.nnf.evaluate values =
        .error ⟨.unassigned "b", [.mistyped "x" .integer .truth]⟩ ∧
      sample.nnf.vars = [⟨"b", .truth⟩, ⟨"x", .integer⟩, ⟨"a", .truth⟩] := by
  have hsample : sample.WellFormed := by decide +kernel
  obtain ⟨hvalue, hvars⟩ := evaluate_nnf hsample
  refine ⟨hsample, ?_, ?_⟩
  · rw [hvalue]
    decide +kernel
  · rw [hvars]
    decide +kernel

end NegationValueWitness

end Expression

end ClauseForm
