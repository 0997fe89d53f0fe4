import ClauseForm.Proofs.Expansion
import ClauseForm.Proofs.Layers

/-!
A formula and its normal forms are equivalent.

`evaluate_normalForm` says that wherever a formula has a value, both of its normal forms have the
same one, because they mean the same and mention no other variables.
-/

namespace ClauseForm

namespace Expression

variable {form : NormalForm} {t u : Atoms} {e : Expression} {ι : Interpretation}

/-- The tree that the normal form of a formula is expanded from. -/
def expansionBase (form : NormalForm) (e : Expression) : Expression :=
  if e.isNormal form then e else e.nnf

/-- A term or a list of clauses is its own normal form; every other formula is expanded, from a
tree in negation normal form. -/
theorem normalForm_eq (form : NormalForm) (e : Expression) :
    e.normalForm form =
      if e.isTerm || e.isClauseList form then e
      else
        ofClauses form (expand form (e.expansionBase form) .empty).2
          (expand form (e.expansionBase form) .empty).1 := by
  unfold normalForm normalFormM
  split <;> rfl

/-- What is expanded is a formula. -/
theorem WellFormed.formula_of_expanded (he : e.WellFormed)
    (h : (e.isTerm || e.isClauseList form) = false) : FormulaTree e := by
  refine he.formula_or_term.resolve_right fun hterm => ?_
  simp [isTerm, hterm.category_eq] at h

theorem nnfTree_expansionBase (he : FormulaTree e) (hlist : e.isClauseList form = false) :
    NnfTree (e.expansionBase form) := by
  by_cases hnormal : e.isNormal form = true
  · rw [expansionBase, if_pos hnormal]
    rw [isNormal, hlist, Bool.false_or] at hnormal
    exact nnfTree_of_belongs he hnormal
  · rw [expansionBase, if_neg hnormal]
    exact nnfTree_nnf he

/-- The tree that is expanded is the negation normal form. -/
theorem nnf_expansionBase (he : FormulaTree e) (hlist : e.isClauseList form = false) :
    e.nnf = e.expansionBase form := by
  have hbase := nnf_of_nnfTree (nnfTree_expansionBase he hlist)
  rw [expansionBase] at hbase ⊢
  split
  · rename_i hnormal
    rwa [if_pos hnormal] at hbase
  · rfl

theorem truthIn_expansionBase (he : FormulaTree e) :
    truthIn ι (e.expansionBase form) = truthIn ι e := by
  by_cases hnormal : e.isNormal form = true
  · rw [expansionBase, if_pos hnormal]
  · rw [expansionBase, if_neg hnormal]
    exact truthIn_nnf he ι

theorem mentions_expansionBase (he : FormulaTree e) :
    ∀ a ∈ (e.expansionBase form).atoms, e.Mentions a := by
  by_cases hnormal : e.isNormal form = true
  · rw [expansionBase, if_pos hnormal]
    intro a ha
    exact Or.inl ha
  · rw [expansionBase, if_neg hnormal]
    exact mentions_nnf he

/-- A list of clauses is its own normal form. -/
theorem normalForm_of_isClauseList (hlist : e.isClauseList form = true) :
    e.normalForm form = e := by
  rw [normalForm_eq, hlist, Bool.or_true]
  rfl

/-- The normal form of a formula is the formula itself or comes from an expansion. -/
theorem normalForm_cases (form : NormalForm) (he : FormulaTree e) :
    e.isClauseList form = true ∧ e.normalForm form = e ∨
      ∃ (u : Atoms) (clauses : List Clause),
        Expanded form .empty u (e.expansionBase form) clauses ∧
          e.normalForm form = ofClauses form u clauses := by
  have hterm : e.isTerm = false := by rw [isTerm, he.category_eq]; rfl
  cases hlist : e.isClauseList form with
  | true => exact Or.inl ⟨rfl, normalForm_of_isClauseList hlist⟩
  | false =>
      rw [normalForm_eq, hterm, hlist]
      exact Or.inr ⟨_, _, expanded_of_nnfTree (nnfTree_expansionBase he hlist)
        Atoms.valid_empty, rfl⟩

theorem truthIn_normalForm (form : NormalForm) (he : FormulaTree e) (ι : Interpretation) :
    truthIn ι (e.normalForm form) = truthIn ι e := by
  rcases normalForm_cases form he with ⟨-, hsame⟩ | ⟨u, clauses, expanded, hclauses⟩
  · rw [hsame]
  · rw [hclauses, truthIn_ofClauses, expanded.reads_eq, truthIn_expansionBase he]

theorem formulaTree_ofClause {c : Clause} (hu : u.Valid) (hc : ∀ l ∈ c.toList, u.Knows l) :
    FormulaTree (ofClause form u c) := by
  have atoms : ∀ a ∈ (c.toList.mergeSort fun a b => decide (a.natAbs ≤ b.natAbs)).map u.atomOf,
      FormulaTree a := by
    intro a ha
    obtain ⟨l, hl, rfl⟩ := List.mem_map.mp ha
    exact (hu.properAtom_atomOf (hc l (List.mem_mergeSort.mp hl))).formulaTree
  cases form with
  | cnf => exact .or atoms
  | dnf => exact .and atoms

theorem formulaTree_ofClauses {clauses : List Clause} (hu : u.Valid)
    (hclauses : ∀ c ∈ clauses, ∀ l ∈ c.toList, u.Knows l) :
    FormulaTree (ofClauses form u clauses) := by
  have parts : ∀ e ∈ clauses.eraseDups.map (ofClause form u), FormulaTree e := by
    intro e he
    obtain ⟨c, hc, rfl⟩ := List.mem_map.mp he
    exact formulaTree_ofClause hu (hclauses c (List.mem_eraseDups.mp hc))
  rw [ofClauses_eq]
  cases form <;> split
  · exact .and (by simpa using .or (by simp))
  · exact .and parts
  · exact .or (by simpa using .and (by simp))
  · exact .or parts

theorem formulaTree_normalForm (form : NormalForm) (he : FormulaTree e) :
    FormulaTree (e.normalForm form) := by
  rcases normalForm_cases form he with ⟨-, hsame⟩ | ⟨u, clauses, expanded, hclauses⟩
  · rwa [hsame]
  · rw [hclauses]
    exact formulaTree_ofClauses expanded.valid expanded.knows

theorem isProper_listSymbol : form.listSymbol.isProper = false := by
  cases form <;> rfl

theorem isProper_clauseSymbol : form.clauseSymbol.isProper = false := by
  cases form <;> rfl

/-- The atoms in the formula of a list of clauses are those of the literals. -/
theorem exists_of_mem_atoms_ofClauses {clauses : List Clause} (hu : u.Valid)
    (hclauses : ∀ c ∈ clauses, ∀ l ∈ c.toList, u.Knows l) {a : Expression}
    (ha : a ∈ (ofClauses form u clauses).atoms) :
    ∃ l, u.Knows l ∧ a = u.atomOf l := by
  rw [ofClauses_eq] at ha
  split at ha
  · simp [atoms_node, isProper_listSymbol, isProper_clauseSymbol] at ha
  · simp only [atoms_node, isProper_listSymbol, isProper_clauseSymbol, ofClause,
      Bool.false_eq_true, if_false, List.nil_append, List.mem_flatMap, List.mem_map,
      exists_exists_and_eq_and, List.mem_eraseDups, List.mem_mergeSort] at ha
    obtain ⟨c, hc, l, hl, ha⟩ := ha
    have known := hclauses c hc l hl
    rw [(hu.properAtom_atomOf known).atoms_eq, List.mem_singleton] at ha
    exact ⟨l, known, ha⟩

/-- The literals of an expanded formula stand for atoms of the formula and their opposites. -/
theorem Expanded.mentions_atomOf {clauses : List Clause} (he : FormulaTree e)
    (expanded : Expanded form .empty u (e.expansionBase form) clauses) {l : Int} (hl : u.Knows l) :
    e.Mentions (u.atomOf l) := by
  obtain ⟨b, hb, hatom⟩ := hl.exists_atom
  have hmem := List.mem_of_getElem? hb
  have proper := expanded.valid.proper b hmem
  have mentioned : e.Mentions b := by
    rcases expanded.mem_old b hmem with hold | hmentions
    · simp [Atoms.empty] at hold
    · exact hmentions.trans (mentions_expansionBase he) proper
  rw [hatom]
  split
  · exact mentioned
  · exact mentioned.opposite proper

/-- A normal form has no atoms but those of the formula and their opposites. -/
theorem mentions_normalForm (form : NormalForm) (he : FormulaTree e) :
    ∀ a ∈ (e.normalForm form).atoms, e.Mentions a := by
  intro a ha
  rcases normalForm_cases form he with ⟨-, hsame⟩ | ⟨u, clauses, expanded, hclauses⟩
  · rw [hsame] at ha
    exact Or.inl ha
  · rw [hclauses] at ha
    obtain ⟨l, hl, rfl⟩ := exists_of_mem_atoms_ofClauses expanded.valid expanded.knows ha
    exact expanded.mentions_atomOf he hl

theorem mem_occurrences_normalForm (form : NormalForm) (he : FormulaTree e) {x : Variable}
    (hx : x ∈ (e.normalForm form).occurrences) : x ∈ e.occurrences :=
  mem_occurrences_of_mentions he (formulaTree_normalForm form he) (mentions_normalForm form he) hx

/-- A formula without comparisons has none in its normal forms. -/
theorem comparisons_normalForm (form : NormalForm) (he : FormulaTree e)
    (hnone : e.comparisons = []) : (e.normalForm form).comparisons = [] := by
  rw [comparisons_eq, List.filterMap_eq_nil_iff] at hnone ⊢
  intro a ha
  rcases mentions_normalForm form he a ha with hmem | hmem
  · exact hnone a hmem
  · cases properAtom_of_mem_atoms (formulaTree_normalForm form he) ha with
    | literal => rfl
    | compare => exact absurd (hnone _ hmem) (by simp [opposite, Symbol.comparison?])

/-- The normal form of a formula is a list of clauses. -/
theorem isClauseList_normalForm (form : NormalForm) (he : FormulaTree e) :
    (e.normalForm form).isClauseList form = true := by
  rcases normalForm_cases form he with ⟨hlist, hsame⟩ | ⟨u, clauses, expanded, hclauses⟩
  · rwa [hsame]
  · rw [hclauses, ofClauses_eq]
    split
    · simp [isClauseList]
    · have hatom : ∀ c ∈ clauses, ∀ l ∈ c.toList, (u.atomOf l).symbol.isAtom = true :=
        fun c hc l hl => (expanded.valid.properAtom_atomOf (expanded.knows c hc l hl)).isAtom
      simpa [isClauseList, ofClause] using hatom

/-- A term is its own normal form. -/
theorem normalForm_of_term (form : NormalForm) (he : TermTree e) : e.normalForm form = e := by
  have hterm : e.isTerm = true := by rw [isTerm, he.category_eq]; rfl
  rw [normalForm_eq, hterm]
  rfl

/-- Wherever an expression has a value, its normal forms have the same one, and they mention none
but its variables. -/
theorem evaluate_normalForm (form : NormalForm) (he : e.WellFormed) :
    (∀ (v : Bindings) (value : Value),
      e.evaluate v = .ok value → (e.normalForm form).evaluate v = .ok value) ∧
      ∀ x ∈ (e.normalForm form).vars, x ∈ e.vars := by
  rcases he.formula_or_term with hformula | hterm
  · have hresult := formulaTree_normalForm form hformula
    have hvars : ∀ x ∈ (e.normalForm form).vars, x ∈ e.vars := fun x hx =>
      mem_vars.mpr (mem_occurrences_normalForm form hformula (mem_vars.mp hx))
    refine ⟨?_, hvars⟩
    intro v value hvalue
    obtain ⟨hassigned, rfl⟩ := (evaluate_eq_ok_iff he).mp hvalue
    refine (evaluate_eq_ok_iff hresult.wellFormed).mpr ⟨fun x hx => hassigned x (hvars x hx), ?_⟩
    rw [meaning_of_formula hresult, meaning_of_formula hformula, truthIn_normalForm form hformula]
  · rw [normalForm_of_term form hterm]
    exact ⟨fun _ _ h => h, fun _ h => h⟩

namespace EquivalenceWitness

/-- An equivalence of a negated name and a disjunction with a comparison, its opposite and an empty
conjunction. -/
def sample : Expression :=
  node .equivalent [
    node .not [literal "a" true],
    node .or [
      node (.compare .less) [unknown "x", constant 1],
      node (.compare .greaterOrEqual) [unknown "x", constant 1],
      node .and []]]

def values : Bindings := ⟨[("a", .truth false), ("x", .integer 3)]⟩

theorem evaluate_normalForm_sample :
    sample.WellFormed ∧ sample.evaluate values = .ok (.truth true) ∧
      (sample.normalForm .cnf).evaluate values = .ok (.truth true) ∧
      ∀ x ∈ (sample.normalForm .cnf).vars, x ∈ sample.vars := by
  have hsample : sample.WellFormed := by decide +kernel
  have hvalue : sample.evaluate values = .ok (.truth true) := by decide +kernel
  obtain ⟨hsame, hvars⟩ := evaluate_normalForm .cnf hsample
  exact ⟨hsample, hvalue, hsame values _ hvalue, hvars⟩

end EquivalenceWitness

end Expression

end ClauseForm
