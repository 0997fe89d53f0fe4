import ClauseForm.NormalForm.Shape
import ClauseForm.Proofs.Negation

/-!
The recogniser of normal forms by recursion on the tree.

The stack of the recogniser is decided part by part, so a node belongs into a normal form if its
operands do, each at the place that the node gives it (`belongs_listSymbol`,
`belongs_clauseSymbol`).
-/

namespace ClauseForm

namespace Expression

variable {form : NormalForm} {e : Expression} {s : Symbol} {es : List Expression} {inside : Bool}

theorem listSymbol_ne_clauseSymbol : form.listSymbol ≠ form.clauseSymbol := by
  cases form <;> decide

theorem isAtom_listSymbol : form.listSymbol.isAtom = false := by
  cases form <;> rfl

theorem isAtom_clauseSymbol : form.clauseSymbol.isAtom = false := by
  cases form <;> rfl

/-- Decides whether a formula belongs into a normal form, or inside of a clause of it. -/
def belongs (form : NormalForm) (inside : Bool) (e : Expression) : Bool :=
  isNormalFrom form [(e, inside)]

/-- What is pending is decided on one part after the other. -/
theorem isNormalFrom_append (parts others : List (Expression × Bool)) :
    isNormalFrom form (parts ++ others) =
      (isNormalFrom form parts && isNormalFrom form others) := by
  fun_induction isNormalFrom form parts with
  | case1 => rfl
  | case2 s es inside pending hatom ih =>
      rw [List.cons_append, isNormalFrom, if_pos hatom, ih]
  | case3 s es inside pending hatom joins opens hstray =>
      rw [List.cons_append, isNormalFrom, if_neg hatom, if_pos hstray, Bool.false_and]
  | case4 s es inside pending hatom joins opens hstray ih =>
      rw [List.cons_append, isNormalFrom, if_neg hatom, if_neg hstray, ← List.append_assoc]
      simpa using ih

theorem isNormalFrom_eq (parts : List (Expression × Bool)) :
    isNormalFrom form parts = parts.all fun part => part.1.belongs form part.2 := by
  induction parts with
  | nil => rw [isNormalFrom, List.all_nil]
  | cons part parts ih =>
      rw [List.all_cons, ← ih, belongs, ← isNormalFrom_append, List.singleton_append]

theorem belongs_node (s : Symbol) (es : List Expression) (inside : Bool) :
    (node s es).belongs form inside =
      if s.isAtom then true
      else if !(s == form.listSymbol || s == form.clauseSymbol) ||
        (s == form.listSymbol && inside) then false
      else es.all (·.belongs form (inside || s == form.clauseSymbol)) := by
  have operands : ∀ below, isNormalFrom form ((es.map fun e => (e, below)).reverse ++ []) =
      es.all (·.belongs form below) := by
    intro below
    rw [List.append_nil, isNormalFrom_eq, List.all_reverse, List.all_map]
    rfl
  have hdone : isNormalFrom form [] = true := by rw [isNormalFrom]
  rw [belongs, isNormalFrom, hdone]
  simp only [operands]

theorem belongs_atom (hs : s.isAtom = true) : (node s es).belongs form inside = true := by
  rw [belongs_node, if_pos hs]

/-- What joins clauses does not belong inside of them. -/
theorem belongs_listSymbol :
    (node form.listSymbol es).belongs form inside = (!inside && es.all (·.belongs form false)) := by
  have hdiffer : (form.listSymbol == form.clauseSymbol) = false := by cases form <;> rfl
  rw [belongs_node, isAtom_listSymbol, hdiffer]
  cases inside <;> simp

theorem belongs_clauseSymbol :
    (node form.clauseSymbol es).belongs form inside = es.all (·.belongs form true) := by
  rw [belongs_node, isAtom_clauseSymbol]
  simp [listSymbol_ne_clauseSymbol.symm]

/-- A node of another kind belongs nowhere. -/
theorem belongs_stray (hatom : s.isAtom = false) (hlist : s ≠ form.listSymbol)
    (hclause : s ≠ form.clauseSymbol) : (node s es).belongs form inside = false := by
  rw [belongs_node, hatom]
  simp [hlist, hclause]

/-- All operands of a conjunction or a disjunction that belongs somewhere belong somewhere. -/
theorem belongs_of_junction (hs : s = .and ∨ s = .or) (h : (node s es).belongs form inside = true) :
    ∃ below, ∀ e ∈ es, e.belongs form below = true := by
  have hsymbol : s = form.listSymbol ∨ s = form.clauseSymbol := by
    rcases hs with rfl | rfl <;> cases form <;> simp [NormalForm.listSymbol, NormalForm.clauseSymbol]
  rcases hsymbol with rfl | rfl
  · rw [belongs_listSymbol] at h
    exact ⟨false, List.all_eq_true.mp (Bool.and_eq_true_iff.mp h).2⟩
  · rw [belongs_clauseSymbol] at h
    exact ⟨true, List.all_eq_true.mp h⟩

/-- A formula that belongs into a normal form is in negation normal form. -/
theorem nnfTree_of_belongs (he : FormulaTree e) (h : e.belongs form inside = true) : NnfTree e := by
  induction he generalizing inside with
  | verum => exact .verum
  | falsum => exact .falsum
  | literal name positive => exact .atom (.literal name positive)
  | compare c hl hr => exact .atom (.compare c hl hr)
  | not | implies | equivalent =>
      rw [belongs_stray rfl (by cases form <;> decide) (by cases form <;> decide)] at h
      contradiction
  | and hes ih =>
      obtain ⟨below, hbelow⟩ := belongs_of_junction (Or.inl rfl) h
      exact .and fun e he => ih e he (hbelow e he)
  | or hes ih =>
      obtain ⟨below, hbelow⟩ := belongs_of_junction (Or.inr rfl) h
      exact .or fun e he => ih e he (hbelow e he)

end Expression

end ClauseForm
