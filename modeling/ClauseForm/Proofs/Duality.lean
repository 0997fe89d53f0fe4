import ClauseForm.Proofs.Encoding
import ClauseForm.Proofs.ExpansionReports
import ClauseForm.Proofs.NegatedClauses
import ClauseForm.Proofs.NegationShape

/-!
The two normal forms are mirror images of each other.

The negation of a formula in negation normal form swaps the connectives and the constants, and
replaces every atom by its opposite.  The expansion of the mirrored formula into the other normal
form goes along: at every node it has the negated clauses over the same atoms and makes the same
reports.  `normalForm_complement` draws the conclusion for every observer and every supervisor.
-/

namespace ClauseForm

namespace Expression

variable {form : NormalForm} {e a : Expression} {es : List Expression} {t u : Atoms}

/-- The negation normal form of the negation. -/
def complement (e : Expression) : Expression := (node .not [e]).nnf

theorem complement_eq (he : FormulaTree e) : e.complement = (e.fold polar).negative := by
  rw [complement, nnf_of_formula (.not he), fold_node]
  rfl

theorem complement_verum : (node .verum []).complement = node .falsum [] := by
  rw [complement_eq .verum, fold_node]
  rfl

theorem complement_falsum : (node .falsum []).complement = node .verum [] := by
  rw [complement_eq .falsum, fold_node]
  rfl

theorem complement_and (hes : ∀ e ∈ es, FormulaTree e) :
    (node .and es).complement = node .or (es.map complement) := by
  have operands : es.map complement = es.map fun e => (e.fold polar).negative :=
    List.map_congr_left fun e he => complement_eq (hes e he)
  rw [complement_eq (.and hes), fold_node, operands]
  simp [polar, Function.comp_def]

theorem complement_or (hes : ∀ e ∈ es, FormulaTree e) :
    (node .or es).complement = node .and (es.map complement) := by
  have operands : es.map complement = es.map fun e => (e.fold polar).negative :=
    List.map_congr_left fun e he => complement_eq (hes e he)
  rw [complement_eq (.or hes), fold_node, operands]
  simp [polar, Function.comp_def]

theorem complement_listSymbol (hes : ∀ e ∈ es, FormulaTree e) :
    (node form.listSymbol es).complement = node form.dual.listSymbol (es.map complement) := by
  cases form with
  | cnf => exact complement_and hes
  | dnf => exact complement_or hes

theorem complement_clauseSymbol (hes : ∀ e ∈ es, FormulaTree e) :
    (node form.clauseSymbol es).complement = node form.dual.clauseSymbol (es.map complement) := by
  cases form with
  | cnf => exact complement_or hes
  | dnf => exact complement_and hes

theorem complement_atom (ha : FormulaTree a) (hatom : a.symbol.isAtom = true) :
    a.complement = a.opposite := by
  cases ha with
  | verum => exact complement_verum
  | falsum => exact complement_falsum
  | literal name positive =>
      rw [complement_eq (.literal name positive), fold_node]
      rfl
  | compare c hl hr =>
      rw [complement_eq (.compare c hl hr), fold_node]
      rfl
  | _ => contradiction

theorem ProperAtom.complement_eq (ha : ProperAtom a) : a.complement = a.opposite :=
  complement_atom ha.formulaTree ha.isAtom

theorem nnfTree_complement (he : FormulaTree e) : NnfTree e.complement :=
  nnfTree_nnf (.not he)

/-- A well-formed expression in negation normal form is a formula. -/
theorem nnfTree_of_inNnf (he : e.WellFormed) (h : e.inNnf = true) : NnfTree e := by
  rcases he.formula_or_term with hformula | hterm
  · exact (inNnf_iff hformula).mp h
  · cases hterm <;> rw [inNnf_node] at h <;> contradiction

/-! ### Which formulas are left as they are -/

theorem isAtom_complement (he : NnfTree e) : e.complement.symbol.isAtom = e.symbol.isAtom := by
  cases he with
  | verum => rw [complement_verum]; rfl
  | falsum => rw [complement_falsum]; rfl
  | atom ha => rw [ha.complement_eq, ha.isAtom, ha.opposite.isAtom]
  | and hes => rw [complement_and fun e he => (hes e he).formulaTree]; rfl
  | or hes => rw [complement_or fun e he => (hes e he).formulaTree]; rfl

/-- A test of the root and of the operands carries over to the mirrored formula, if the test of the
operands does. -/
theorem junction_complement (form : NormalForm) (p q : Expression → Bool)
    (hoperands : ∀ f, NnfTree f → q f.complement = p f) (he : NnfTree e) :
    (e.complement.symbol == form.dual.listSymbol && e.complement.operands.all q) =
      (e.symbol == form.listSymbol && e.operands.all p) := by
  have hmap : ∀ {es : List Expression}, (∀ f ∈ es, NnfTree f) →
      (es.map complement).all q = es.all p := by
    intro es hes
    rw [List.all_map]
    exact all_congr_of_mem fun f hf => hoperands f (hes f hf)
  cases he with
  | verum => rw [complement_verum]; cases form <;> rfl
  | falsum => rw [complement_falsum]; cases form <;> rfl
  | atom ha => rw [ha.complement_eq]; cases ha <;> cases form <;> rfl
  | and hes =>
      rw [complement_and fun e he => (hes e he).formulaTree]
      cases form with
      | cnf => exact hmap hes
      | dnf => rfl
  | or hes =>
      rw [complement_or fun e he => (hes e he).formulaTree]
      cases form with
      | cnf => rfl
      | dnf => exact hmap hes

/-- A formula is a list of clauses exactly if the mirrored formula is one in the other form. -/
theorem isClauseList_complement (form : NormalForm) (he : NnfTree e) :
    e.complement.isClauseList form.dual = e.isClauseList form := by
  refine junction_complement form _ _ (fun clause hclause => ?_) he
  have hitems := junction_complement form.dual (fun a => a.symbol.isAtom) (fun a => a.symbol.isAtom)
    (fun a => isAtom_complement) hclause
  cases form <;> exact hitems

/-! ### The expansion of a mirrored formula -/

/-- The expansion of a formula and that of the mirrored one go along with each other. -/
structure Mirrored (form : NormalForm) (e : Expression) : Prop where
  clauses : ∀ t, expand form.dual e.complement t =
    ((expand form e t).1.map Literals.negate, (expand form e t).2)
  reports : ∀ t, expansionReports form.dual e.complement t = expansionReports form e t

/-- The same for some formulas, one after the other. -/
structure AllMirrored (form : NormalForm) (es : List Expression) : Prop where
  clauses : ∀ t, expandAll form.dual (es.map complement) t =
    ((expandAll form es t).1.map (List.map Literals.negate), (expandAll form es t).2)
  reports : ∀ t, operandReports form.dual (es.map complement) t = operandReports form es t

theorem allMirrored_of_forall (hes : ∀ e ∈ es, Mirrored form e) : AllMirrored form es := by
  induction es with
  | nil => exact ⟨fun t => rfl, fun t => rfl⟩
  | cons e es ih =>
      have first := hes e List.mem_cons_self
      have rest := ih fun f hf => hes f (List.mem_cons_of_mem _ hf)
      constructor
      · intro t
        rw [List.map_cons, expandAll_cons, expandAll_cons, first.clauses, rest.clauses]
        rfl
      · intro t
        rw [List.map_cons, operandReports, operandReports, first.reports, first.clauses,
          rest.reports]

/-- What joins clauses appends the negated clauses, and reports nothing but its visit. -/
theorem AllMirrored.listSymbol (h : AllMirrored form es) (hes : ∀ e ∈ es, FormulaTree e) :
    Mirrored form (node form.listSymbol es) where
  clauses t := by
    rw [complement_listSymbol hes, expand_listSymbol, expand_listSymbol, h.clauses, List.map_flatten]
  reports t := by
    rw [complement_listSymbol hes, expansionReports, expansionReports, h.reports]
    cases form <;> rfl

/-- The connective inside clauses multiplies the negated clauses. -/
theorem AllMirrored.clauseSymbol (h : AllMirrored form es) (hes : ∀ e ∈ es, FormulaTree e) :
    Mirrored form (node form.clauseSymbol es) where
  clauses t := by
    rw [complement_clauseSymbol hes, expand_clauseSymbol, expand_clauseSymbol, h.clauses,
      Clause.products_negate]
  reports t := by
    have products := Clause.productsReports_negate (expandAll form es t).1
    rw [complement_clauseSymbol hes, expansionReports, expansionReports, h.reports, h.clauses]
    cases form <;> exact congrArg (operandReports _ es t ++ .checkpoint :: ·) products

/-- Terms add nothing to the table, so their reports can be compared one by one. -/
theorem operandReports_terms (hes : ∀ e ∈ es, TermTree e)
    (hreports : ∀ e ∈ es, ∀ t, expansionReports form.dual e t = expansionReports form e t)
    (t : Atoms) : operandReports form.dual es t = operandReports form es t := by
  induction es with
  | nil => rfl
  | cons e es ih =>
      have he := hes e List.mem_cons_self
      have rest := ih (fun f hf => hes f (List.mem_cons_of_mem _ hf)) fun f hf =>
        hreports f (List.mem_cons_of_mem _ hf)
      rw [operandReports, operandReports, expand_term he, expand_term he, rest,
        hreports e List.mem_cons_self]

theorem expansionReports_term (he : TermTree e) (t : Atoms) :
    expansionReports form.dual e t = expansionReports form e t := by
  induction he generalizing t with
  | unknown | constant => rfl
  | sum hne hes ih | product hne hes ih =>
      rw [expansionReports, expansionReports, operandReports_terms hes ih]
      rfl

/-- A mirrored atom has the number of the atom in the other sign. -/
theorem mirrored_atom (form : NormalForm) (ha : ProperAtom a) : Mirrored form a where
  clauses t := by
    rw [ha.complement_eq, expand_atom ha.opposite, expand_atom ha, Atoms.literalOf_opposite ha,
      List.map_singleton, Clause.negate_arranged]
    rfl
  reports t := by
    rw [ha.complement_eq]
    cases ha with
    | literal => rfl
    | @compare c l r hl hr =>
        have hterms : ∀ e ∈ [l, r], TermTree e := by simp [hl, hr]
        rw [opposite, expansionReports, expansionReports,
          operandReports_terms hterms fun e he => expansionReports_term (hterms e he)]
        rfl

/-- At every node of a formula in negation normal form the two expansions go along. -/
theorem mirrored_of_nnfTree (form : NormalForm) (he : NnfTree e) : Mirrored form e := by
  induction he with
  | verum =>
      constructor <;> intro t
      · rw [complement_verum, expand_falsum, expand_verum]
        cases form with
        | cnf => rfl
        | dnf => exact congrArg (fun c => ([c], t)) Clause.negate_empty.symm
      · rw [complement_verum]
        rfl
  | falsum =>
      constructor <;> intro t
      · rw [complement_falsum, expand_falsum, expand_verum]
        cases form with
        | cnf => exact congrArg (fun c => ([c], t)) Clause.negate_empty.symm
        | dnf => rfl
      · rw [complement_falsum]
        rfl
  | atom ha => exact mirrored_atom form ha
  | @and es hes ih =>
      have trees : ∀ e ∈ es, FormulaTree e := fun e he => (hes e he).formulaTree
      cases form with
      | cnf => exact (allMirrored_of_forall ih).listSymbol trees
      | dnf => exact (allMirrored_of_forall ih).clauseSymbol trees
  | @or es hes ih =>
      have trees : ∀ e ∈ es, FormulaTree e := fun e he => (hes e he).formulaTree
      cases form with
      | cnf => exact (allMirrored_of_forall ih).clauseSymbol trees
      | dnf => exact (allMirrored_of_forall ih).listSymbol trees

/-! ### The formulas of the clauses -/

theorem complement_ofClause {c : Clause} (hu : u.Valid) (hc : c.Clean)
    (hknows : ∀ l ∈ c.toList, u.Knows l) :
    (ofClause form u c).complement = ofClause form.dual u c.negate := by
  have hindices := hc.byIndex_negate fun l hl => (hknows l hl).1
  have hatoms : (c.byIndex.map u.atomOf).map complement =
      (c.byIndex.map fun l => -l).map u.atomOf := by
    rw [List.map_map, List.map_map]
    apply List.map_congr_left
    intro l hl
    have hl := hknows l (Clause.mem_byIndex.mp hl)
    exact (hu.properAtom_atomOf hl).complement_eq.trans (hu.atomOf_neg hl).symm
  rw [← hindices] at hatoms
  have tree : FormulaTree (ofClause form u c) := formulaTree_ofClause hu hknows
  have items := formulaTree_of_mem_operands clauseSymbol_junction tree rfl
  exact (complement_clauseSymbol items).trans (congrArg _ hatoms)

theorem complement_ofClauses {clauses : List Clause} (hu : u.Valid)
    (hclean : ∀ c ∈ clauses, c.Clean)
    (hknows : ∀ c ∈ clauses, ∀ l ∈ c.toList, u.Knows l) :
    (ofClauses form u clauses).complement =
      ofClauses form.dual u (clauses.map Literals.negate) := by
  have hempty : (clauses.map Literals.negate).any Literals.isEmpty =
      clauses.any Literals.isEmpty := by
    rw [List.any_map]
    exact any_congr_of_mem fun c _ => c.isEmpty_negate
  have hdistinct : (clauses.map Literals.negate).eraseDups =
      clauses.eraseDups.map Literals.negate :=
    eraseDups_map_of_injective fun c _ d _ hequal => Clause.negate_injective hequal
  rw [ofClauses_eq, ofClauses_eq, hempty, hdistinct]
  split
  · have hnone : ∀ e ∈ ([] : List Expression), FormulaTree e := by simp
    have hclause : ∀ e ∈ [node form.clauseSymbol []], FormulaTree e := by
      cases form with
      | cnf => exact List.forall_mem_singleton.mpr (.or hnone)
      | dnf => exact List.forall_mem_singleton.mpr (.and hnone)
    rw [complement_listSymbol hclause, List.map_singleton, complement_clauseSymbol hnone,
      List.map_nil]
  · have trees : ∀ e ∈ clauses.eraseDups.map (ofClause form u), FormulaTree e := by
      rw [List.forall_mem_map]
      exact fun c hc => formulaTree_ofClause hu (hknows c (List.mem_eraseDups.mp hc))
    rw [complement_listSymbol trees, List.map_map, List.map_map]
    congr 1
    apply List.map_congr_left
    intro c hc
    have hc := List.mem_eraseDups.mp hc
    exact complement_ofClause hu (hclean c hc) (hknows c hc)

/-- The mirror image of a list of clauses, clause by clause and atom by atom. -/
theorem complement_of_isClauseList (he : FormulaTree e) (hlist : e.isClauseList form = true) :
    e.complement = node form.dual.listSymbol (e.operands.map fun clause =>
      node form.dual.clauseSymbol (clause.operands.map opposite)) := by
  obtain ⟨s, clauses⟩ := e
  obtain ⟨hs, hclauses⟩ := Bool.and_eq_true_iff.mp hlist
  obtain rfl : s = form.listSymbol := by simpa using hs
  have trees : ∀ f ∈ clauses, FormulaTree f :=
    formulaTree_of_mem_operands listSymbol_junction he rfl
  rw [complement_listSymbol trees, operands_node]
  congr 1
  apply List.map_congr_left
  intro clause hclause
  have tree := trees clause hclause
  obtain ⟨s, items⟩ := clause
  obtain ⟨hs, hitems⟩ := Bool.and_eq_true_iff.mp (List.all_eq_true.mp hclauses _ hclause)
  obtain rfl : s = form.clauseSymbol := by simpa using hs
  have trees : ∀ f ∈ items, FormulaTree f :=
    formulaTree_of_mem_operands clauseSymbol_junction tree rfl
  rw [complement_clauseSymbol trees, operands_node]
  congr 1
  apply List.map_congr_left
  intro item hitem
  exact complement_atom (trees item hitem) (List.all_eq_true.mp hitems item hitem)

/-! ### The two normal forms -/

theorem NnfTree.isTerm_eq (he : NnfTree e) : e.isTerm = false := by
  rw [isTerm, he.formulaTree.category_eq]
  rfl

theorem NnfTree.expansionBase_eq (he : NnfTree e) (hlist : e.isClauseList form = false) :
    e.expansionBase form = e := by
  rw [← nnf_expansionBase he.formulaTree hlist, nnf_of_nnfTree he]

theorem reports_complement (form : NormalForm) (he : NnfTree e) :
    e.complement.reports form.dual = e.reports form := by
  have hmirror := nnfTree_complement he.formulaTree
  have hsame := isClauseList_complement form he
  rw [reports, reports, he.isTerm_eq, hmirror.isTerm_eq, hsame, Bool.false_or]
  cases hlist : e.isClauseList form with
  | true => rfl
  | false =>
      rw [he.expansionBase_eq hlist, hmirror.expansionBase_eq (hsame.trans hlist)]
      exact (mirrored_of_nnfTree form he).reports .empty

theorem normalForm_complement_eq (form : NormalForm) (he : NnfTree e) :
    e.complement.normalForm form.dual = (e.normalForm form).complement := by
  have hmirror := nnfTree_complement he.formulaTree
  have hsame := isClauseList_complement form he
  rw [normalForm_eq, normalForm_eq, he.isTerm_eq, hmirror.isTerm_eq, hsame, Bool.false_or]
  cases hlist : e.isClauseList form with
  | true => rfl
  | false =>
      have expanded : Expanded form .empty _ e _ := expanded_of_nnfTree he Atoms.valid_empty
      rw [he.expansionBase_eq hlist, hmirror.expansionBase_eq (hsame.trans hlist),
        (mirrored_of_nnfTree form he).clauses .empty]
      exact (complement_ofClauses expanded.valid (clean_of_mem_expand he .empty)
        expanded.knows).symm

/-- The two normal forms of a formula in negation normal form and of its negation are mirror images:
the negation has the same clauses of the same atoms at the same places in the other form, with every
atom replaced by its opposite.  Both are found in lock step.  The same reports are made in the same
order on the way, so every observer sees the same, and every supervisor answers the same, stops both
at the same report or neither, and ends in the same state. -/
theorem normalForm_complement (form : NormalForm) (he : e.WellFormed) (hnnf : e.inNnf = true) :
    e.complement.normalForm form.dual = (e.normalForm form).complement ∧
      (e.normalForm form).complement =
        node form.dual.listSymbol ((e.normalForm form).operands.map fun clause =>
          node form.dual.clauseSymbol (clause.operands.map opposite)) ∧
      e.complement.reports form.dual = e.reports form ∧
      (∀ {m : Type → Type} [Monad m] [LawfulMonad m] (o : Observer m),
        e.complement.normalFormM form.dual o = complement <$> e.normalFormM form o) ∧
      ∀ {σ : Type} (s : Supervisor σ) (state : σ),
        e.complement.normalFormUnder s state form.dual =
          (e.normalFormUnder s state form).map fun (outcome, final) =>
            (outcome.map complement, final) := by
  have tree := nnfTree_of_inNnf he hnnf
  have hreports := reports_complement form tree
  have hresult := normalForm_complement_eq form tree
  refine ⟨hresult, ?_, hreports, ?_, ?_⟩
  · exact complement_of_isClauseList (formulaTree_normalForm form tree.formulaTree)
      (isClauseList_normalForm form tree.formulaTree)
  · intro m _ _ o
    have mirrored := scripted_normalForm o form.dual e.complement
    rw [hreports, hresult] at mirrored
    exact mirrored.trans ((scripted_normalForm o form e).map complement).symm
  · intro σ s state
    cases hstart : s.start state with
    | error breakdown =>
        rw [normalFormUnder, normalFormUnder, Supervisor.supervise_of_breakdown hstart,
          Supervisor.supervise_of_breakdown hstart]
        rfl
    | ok started =>
        rw [normalFormUnder_of_start form.dual _ hstart, normalFormUnder_of_start form e hstart,
          hreports, hresult]
        rcases (s.hear (e.reports form) started).1 with ⟨⟩ | ⟨⟩ <;> rfl

namespace DualityWitness

/-- A disjunction that a conjunction is distributed over, with a comparison, its opposite and a
constant. -/
def sample : Expression :=
  node .or [
    node .and [literal "b" true, node (.compare .less) [unknown "x", constant 1]],
    literal "a" false,
    node .falsum [],
    node .and [node (.compare .greaterOrEqual) [unknown "x", constant 1], literal "b" true]]

/-- Also a tally that loses its patience on the way sees no difference. -/
theorem normalForm_complement_sample :
    (sample.WellFormed ∧ sample.inNnf = true ∧ sample.isClauseList .cnf = false) ∧
      sample.complement.normalForm .dnf = (sample.normalForm .cnf).complement ∧
      (sample.normalForm .cnf).complement =
        node .or ((sample.normalForm .cnf).operands.map fun clause =>
          node .and (clause.operands.map opposite)) ∧
      sample.complement.reports .dnf = sample.reports .cnf ∧
      sample.complement.normalFormUnder Tally.supervisor (.new (some 4)) .dnf =
        (sample.normalFormUnder Tally.supervisor (.new (some 4)) .cnf).map fun (outcome, final) =>
          (outcome.map complement, final) := by
  have hsample : sample.WellFormed := by decide +kernel
  have hnnf : sample.inNnf = true := by decide +kernel
  obtain ⟨hresult, hmirror, hreports, -, hsupervised⟩ := normalForm_complement .cnf hsample hnnf
  exact ⟨⟨hsample, hnnf, by decide +kernel⟩, hresult, hmirror, hreports,
    hsupervised Tally.supervisor (.new (some 4))⟩

end DualityWitness

end Expression

end ClauseForm
