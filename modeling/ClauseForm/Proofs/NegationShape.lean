import ClauseForm.Proofs.Negation

/-!
The shape of negation normal forms.

`inNnf` decides the grammar `NnfTree` of formulas of atoms, conjunctions and disjunctions.
`nnf_shape` says that the rewriting of a formula always comes to a result, that this is a well-formed
formula of this shape, and that the formulas of this shape are the ones that stay as they are.
-/

namespace ClauseForm

namespace Expression

variable {e : Expression}

/-- What is pending is decided on one part after the other. -/
theorem inNnfFrom_append (es fs : List Expression) :
    inNnfFrom (es ++ fs) = (inNnfFrom es && inNnfFrom fs) := by
  fun_induction inNnfFrom es with
  | case1 => rfl
  | case2 es pending ih | case3 es pending ih =>
      rw [List.unattach_reverse, List.unattach_attach] at ih
      rw [List.cons_append, inNnfFrom, ← List.append_assoc, ih]
  | case4 es pending s hand hor hatom ih =>
      rw [List.cons_append, inNnfFrom, if_pos hatom, ih]
      all_goals assumption
  | case5 es pending s hand hor hatom =>
      rw [List.cons_append, inNnfFrom, if_neg hatom, Bool.false_and]
      all_goals assumption

theorem inNnfFrom_eq (es : List Expression) : inNnfFrom es = es.all inNnf := by
  induction es with
  | nil => rw [inNnfFrom, List.all_nil]
  | cons e es ih => rw [List.all_cons, ← ih, inNnf, ← inNnfFrom_append, List.singleton_append]

theorem inNnf_node (s : Symbol) (es : List Expression) :
    (node s es).inNnf =
      match s with
      | .and | .or => es.all inNnf
      | s => s.isAtom := by
  have operands : inNnfFrom (es.reverse ++ []) = es.all inNnf := by
    rw [List.append_nil, inNnfFrom_eq, List.all_reverse]
  rw [inNnf, inNnfFrom.eq_def]
  cases s with
  | and | or => exact operands
  | _ => simp [Symbol.isAtom, inNnfFrom]

theorem NnfTree.inNnf_eq (he : NnfTree e) : e.inNnf = true := by
  induction he with
  | verum | falsum => rw [inNnf_node]; rfl
  | atom ha => cases ha <;> rw [inNnf_node] <;> rfl
  | and hes ih | or hes ih =>
      rw [inNnf_node]
      exact List.all_eq_true.mpr ih

/-- The recogniser decides the grammar of negation normal forms. -/
theorem inNnf_iff (he : FormulaTree e) : e.inNnf = true ↔ NnfTree e := by
  refine ⟨fun h => ?_, NnfTree.inNnf_eq⟩
  induction he with
  | verum => exact .verum
  | falsum => exact .falsum
  | literal name positive => exact .atom (.literal name positive)
  | compare c hl hr => exact .atom (.compare c hl hr)
  | not | implies | equivalent =>
      rw [inNnf_node] at h
      contradiction
  | and hes ih =>
      rw [inNnf_node] at h
      exact .and fun e he => ih e he (List.all_eq_true.mp h e he)
  | or hes ih =>
      rw [inNnf_node] at h
      exact .or fun e he => ih e he (List.all_eq_true.mp h e he)

/-- A formula is its own negation normal form exactly if it is in that shape already. -/
theorem nnf_eq_self_iff (he : FormulaTree e) : e.nnf = e ↔ NnfTree e := by
  refine ⟨fun h => ?_, nnf_of_nnfTree⟩
  have hresult := nnfTree_nnf he
  rwa [h] at hresult

/-- The rewriting of a formula never misses an operand or a result.  Whatever else is pending, the
visit of the formula or of its negation leaves one result, which is the negation normal form of that,
on top of the results before.  It is a well-formed formula of atoms, conjunctions and disjunctions.
Exactly the formulas of this shape are left as they are, so a second pass changes nothing. -/
theorem nnf_shape (he : e.WellFormed) (hformula : e.isFormula = true) :
    e.nnf? = some e.nnf ∧
      (∀ pending results,
        rewriteFrom (.visit e true :: pending) results = rewriteFrom pending (e.nnf :: results) ∧
          rewriteFrom (.visit e false :: pending) results =
            rewriteFrom pending ((node .not [e]).nnf :: results)) ∧
      e.nnf.WellFormed ∧ e.nnf.isFormula = true ∧ e.nnf.inNnf = true ∧
      (e.nnf = e ↔ e.inNnf = true) ∧ e.nnf.nnf = e.nnf := by
  have tree : FormulaTree e := formulaTree_iff.mpr ⟨he, hformula⟩
  have result : NnfTree e.nnf := nnfTree_nnf tree
  obtain ⟨hwellFormed, hcategory⟩ := formulaTree_iff.mp result.formulaTree
  refine ⟨nnf?_of_wellFormed he, tree.settles.rewriteFrom_eq, hwellFormed, hcategory,
    result.inNnf_eq, ?_, nnf_of_nnfTree result⟩
  rw [nnf_eq_self_iff tree, inNnf_iff tree]

namespace NegationShapeWitness

/-- A negated equivalence of an empty disjunction and an implication between a comparison and a
negated name. -/
def sample : Expression :=
  node .not [
    node .equivalent [
      node .or [],
      node .implies [
        node (.compare .lessOrEqual) [unknown "x", node .sum [constant 1, unknown "y"]],
        node .not [literal "a" true]]]]

theorem nnf_shape_sample :
    sample.WellFormed ∧ sample.isFormula = true ∧ sample.inNnf = false ∧
      sample.nnf? = some sample.nnf ∧ sample.nnf.WellFormed ∧ sample.nnf.inNnf = true ∧ sample.nnf ≠ sample ∧
      sample.nnf.nnf = sample.nnf := by
  have hsample : sample.WellFormed := by decide +kernel
  have hother : sample.inNnf = false := by decide +kernel
  obtain ⟨hresult, -, hwellFormed, -, hshape, hsame, hstable⟩ := nnf_shape hsample rfl
  refine ⟨hsample, rfl, hother, hresult, hwellFormed, hshape, fun h => ?_, hstable⟩
  rw [hsame.mp h] at hother
  contradiction

end NegationShapeWitness

end Expression

end ClauseForm
