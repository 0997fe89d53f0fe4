import ClauseForm.Expression.PreOrder
import Mathlib.Data.List.Basic

/-!
The two grammars behind well-formedness.

A well-formed expression is a formula or a term, and every node of it has one of a few shapes.
`formulaTree_iff` and `termTree_iff` make these shapes available for inductions.
-/

namespace ClauseForm

namespace Expression

/-- Trees of integer terms. -/
inductive TermTree : Expression → Prop where
  | unknown (name : String) : TermTree (node (.unknown name) [])
  | constant (value : Int64) : TermTree (node (.constant value) [])
  | sum {es : List Expression} :
      es ≠ [] → (∀ e ∈ es, TermTree e) → TermTree (node .sum es)
  | product {es : List Expression} :
      es ≠ [] → (∀ e ∈ es, TermTree e) → TermTree (node .product es)

/-- Trees of formulas. -/
inductive FormulaTree : Expression → Prop where
  | verum : FormulaTree (node .verum [])
  | falsum : FormulaTree (node .falsum [])
  | literal (name : String) (positive : Bool) :
      FormulaTree (node (.literal name positive) [])
  | compare (c : Comparison) {l r : Expression} :
      TermTree l → TermTree r → FormulaTree (node (.compare c) [l, r])
  | not {e : Expression} : FormulaTree e → FormulaTree (node .not [e])
  | and {es : List Expression} : (∀ e ∈ es, FormulaTree e) → FormulaTree (node .and es)
  | or {es : List Expression} : (∀ e ∈ es, FormulaTree e) → FormulaTree (node .or es)
  | implies {l r : Expression} :
      FormulaTree l → FormulaTree r → FormulaTree (node .implies [l, r])
  | equivalent {l r : Expression} :
      FormulaTree l → FormulaTree r → FormulaTree (node .equivalent [l, r])

attribute [local simp] Symbol.arity Arity.accepts

/-- Operands fit a symbol if there are as many as it takes, and all are of the category that it
takes. -/
theorem misfit?_eq_none_iff {s : Symbol} {es : List Expression} :
    misfit? s es = none ↔
      s.arity.accepts es.length = true ∧
        ∀ c, s.operandCategory = some c → ∀ e ∈ es, e.category = c := by
  unfold misfit?
  cases s.arity.accepts es.length with
  | false => simp
  | true =>
      cases s.operandCategory with
      | none => simp
      | some c =>
          simp [Option.bind_eq_bind, ← Option.eq_none_iff_forall_ne_some,
            List.findIdx?_eq_none_iff]

theorem TermTree.category_eq {e : Expression} (he : TermTree e) : e.category = .term := by
  cases he <;> rfl

theorem FormulaTree.category_eq {e : Expression} (he : FormulaTree e) :
    e.category = .formula := by
  cases he <;> rfl

theorem TermTree.isFormula_eq {e : Expression} (he : TermTree e) : e.isFormula = false := by
  rw [isFormula, he.category_eq]
  rfl

theorem FormulaTree.isFormula_eq {e : Expression} (he : FormulaTree e) :
    e.isFormula = true := by
  rw [isFormula, he.category_eq]
  rfl

theorem TermTree.wellFormed {e : Expression} (he : TermTree e) : e.WellFormed := by
  induction he with
  | unknown | constant => exact .node rfl (by simp)
  | sum hne hes ih | product hne hes ih =>
      refine .node (misfit?_eq_none_iff.mpr ⟨?_, ?_⟩) ih
      · simpa [Nat.one_le_iff_ne_zero] using hne
      · rintro c ⟨rfl⟩ e he
        exact (hes e he).category_eq

theorem FormulaTree.wellFormed {e : Expression} (he : FormulaTree e) : e.WellFormed := by
  induction he with
  | verum | falsum | literal => exact .node rfl (by simp)
  | compare c hl hr =>
      refine .node (misfit?_eq_none_iff.mpr ⟨rfl, ?_⟩) ?_
      · rintro c ⟨rfl⟩ e he
        simp only [List.mem_cons, List.not_mem_nil, or_false] at he
        rcases he with rfl | rfl
        · exact hl.category_eq
        · exact hr.category_eq
      · simpa using ⟨hl.wellFormed, hr.wellFormed⟩
  | not he ih =>
      refine .node (misfit?_eq_none_iff.mpr ⟨rfl, ?_⟩) (by simpa using ih)
      rintro c ⟨rfl⟩ e hmem
      rw [List.mem_singleton.mp hmem]
      exact he.category_eq
  | and hes ih | or hes ih =>
      refine .node (misfit?_eq_none_iff.mpr ⟨?_, ?_⟩) ih
      · simp
      · rintro c ⟨rfl⟩ e he
        exact (hes e he).category_eq
  | implies hl hr ihl ihr | equivalent hl hr ihl ihr =>
      refine .node (misfit?_eq_none_iff.mpr ⟨rfl, ?_⟩) (by simpa using ⟨ihl, ihr⟩)
      rintro c ⟨rfl⟩ e he
      simp only [List.mem_cons, List.not_mem_nil, or_false] at he
      rcases he with rfl | rfl
      · exact hl.category_eq
      · exact hr.category_eq

/-- A well-formed expression belongs to the grammar of its category. -/
theorem WellFormed.tree {e : Expression} (he : e.WellFormed) :
    (e.category = .formula → FormulaTree e) ∧ (e.category = .term → TermTree e) := by
  induction he with
  | @node s es hfit hes ih =>
      obtain ⟨harity, hcategory⟩ := misfit?_eq_none_iff.mp hfit
      have formulas : s.operandCategory = some .formula → ∀ e ∈ es, FormulaTree e :=
        fun h e he => (ih e he).1 (hcategory _ h e he)
      have terms : s.operandCategory = some .term → ∀ e ∈ es, TermTree e :=
        fun h e he => (ih e he).2 (hcategory _ h e he)
      constructor
      · intro hformula
        cases s with
        | unknown | constant | sum | product => cases hformula
        | verum | falsum | literal =>
            obtain rfl : es = [] := by simpa using harity
            constructor
        | and => exact .and (formulas rfl)
        | or => exact .or (formulas rfl)
        | not =>
            obtain ⟨a, rfl⟩ := List.length_eq_one_iff.mp (by simpa using harity)
            exact .not (formulas rfl a (by simp))
        | implies =>
            obtain ⟨l, r, rfl⟩ := List.length_eq_two.mp (by simpa using harity)
            exact .implies (formulas rfl l (by simp)) (formulas rfl r (by simp))
        | equivalent =>
            obtain ⟨l, r, rfl⟩ := List.length_eq_two.mp (by simpa using harity)
            exact .equivalent (formulas rfl l (by simp)) (formulas rfl r (by simp))
        | compare c =>
            obtain ⟨l, r, rfl⟩ := List.length_eq_two.mp (by simpa using harity)
            exact .compare c (terms rfl l (by simp)) (terms rfl r (by simp))
      · intro hterm
        cases s with
        | verum | falsum | literal | not | and | or | implies | equivalent | compare =>
            cases hterm
        | unknown | constant =>
            obtain rfl : es = [] := by simpa using harity
            constructor
        | sum =>
            refine .sum ?_ (terms rfl)
            simpa [Nat.one_le_iff_ne_zero] using harity
        | product =>
            refine .product ?_ (terms rfl)
            simpa [Nat.one_le_iff_ne_zero] using harity

theorem formulaTree_iff {e : Expression} :
    FormulaTree e ↔ e.WellFormed ∧ e.isFormula = true := by
  constructor
  · intro he
    exact ⟨he.wellFormed, he.isFormula_eq⟩
  · rintro ⟨he, hformula⟩
    exact he.tree.1 (by simpa [isFormula] using hformula)

theorem termTree_iff {e : Expression} : TermTree e ↔ e.WellFormed ∧ e.isTerm = true := by
  constructor
  · intro he
    exact ⟨he.wellFormed, by rw [isTerm, he.category_eq]; rfl⟩
  · rintro ⟨he, hterm⟩
    exact he.tree.2 (by simpa [isTerm] using hterm)

/-- An expression is well-formed if no node that is listed misfits. -/
theorem wellFormed_iff {e : Expression} :
    e.WellFormed ↔ ∀ n ∈ e.preOrder, misfit? n.symbol n.operands = none := by
  constructor
  · intro he
    induction he with
    | node hfit hes ih =>
        rw [preOrder_node, List.forall_mem_cons]
        refine ⟨hfit, ?_⟩
        intro n hn
        obtain ⟨e, he, hn⟩ := List.mem_flatMap.mp hn
        exact ih e he n hn
  · intro hnodes
    match e with
    | node s es =>
        rw [preOrder_node, List.forall_mem_cons] at hnodes
        refine .node hnodes.1 fun e he => wellFormed_iff.mpr ?_
        intro n hn
        exact hnodes.2 n (List.mem_flatMap.mpr ⟨e, he, hn⟩)

instance (e : Expression) : Decidable e.WellFormed :=
  decidable_of_iff (∀ n ∈ e.preOrder, misfit? n.symbol n.operands = none) wellFormed_iff.symm

/-- Every well-formed expression is a formula or a term. -/
theorem WellFormed.formula_or_term {e : Expression} (he : e.WellFormed) :
    FormulaTree e ∨ TermTree e := by
  cases hcategory : e.category with
  | formula => exact Or.inl (he.tree.1 hcategory)
  | term => exact Or.inr (he.tree.2 hcategory)

end Expression

end ClauseForm
