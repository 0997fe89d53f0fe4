import ClauseForm.Job
import ClauseForm.Proofs.Equivalence
import ClauseForm.Proofs.Extraction
import ClauseForm.Proofs.Numbering

/-!
The encoding of a formula as clauses over numbered names.

`within_none_spec` says that without a limit only comparisons in the normal form prevent an
encoding, and that an encoding numbers all names of the formula and has its truth value.
-/

namespace ClauseForm

/-- Decides whether a literal is true under the values bound to the names of its index. -/
def Bindings.makesTrue (v : Bindings) (m : Numbering) (l : Int) : Bool :=
  match m.nameOfLiteral? l with
  | some name => v.get? name == some (.truth (decide (0 < l)))
  | none => false

namespace Expression

variable {form : NormalForm} {m : Numbering} {e f : Expression} {v : Bindings}

theorem mem_truthNames {name : String} :
    name ∈ e.truthNames ↔ (⟨name, .truth⟩ : Variable) ∈ e.occurrences := by
  simp only [truthNames, List.mem_eraseDups, List.mem_map, List.mem_filter, beq_iff_eq]
  constructor
  · rintro ⟨⟨_, _⟩, ⟨hmem, rfl⟩, rfl⟩
    exact hmem
  · intro hmem
    exact ⟨_, ⟨hmem, rfl⟩, rfl⟩

theorem nodup_truthNames (e : Expression) : e.truthNames.Nodup := nodup_eraseDups _

/-- The operands of a junction are formulas. -/
theorem formulaTree_of_mem_operands {s : Symbol} (hs : s = .and ∨ s = .or)
    (he : FormulaTree e) (hsymbol : e.symbol = s) : ∀ f ∈ e.operands, FormulaTree f := by
  rcases hs with rfl | rfl <;> cases he <;> first | assumption | contradiction

theorem listSymbol_junction : form.listSymbol = .and ∨ form.listSymbol = .or := by
  cases form <;> simp [NormalForm.listSymbol]

theorem clauseSymbol_junction : form.clauseSymbol = .and ∨ form.clauseSymbol = .or := by
  cases form <;> simp [NormalForm.clauseSymbol]

/-- The clauses of a list of clauses are the operands of its root, and the items those of the
clauses. -/
theorem items_of_isClauseList (hlist : e.isClauseList form = true) :
    e.items form = e.operands.flatMap operands := by
  obtain ⟨hroot, hclauses⟩ := Bool.and_eq_true_iff.mp hlist
  rw [items, clauseParts, if_pos hroot]
  apply List.flatMap_congr
  intro clause hclause
  have := List.all_eq_true.mp hclauses clause hclause
  rw [itemParts, if_pos (Bool.and_eq_true_iff.mp this).1]

/-- The items of a list of clauses are constants and proper atoms. -/
theorem item_cases (he : FormulaTree e) (hlist : e.isClauseList form = true) {item : Expression}
    (hitem : item ∈ e.items form) :
    item = node .verum [] ∨ item = node .falsum [] ∨ ProperAtom item := by
  rw [items_of_isClauseList hlist] at hitem
  obtain ⟨hroot, hclauses⟩ := Bool.and_eq_true_iff.mp hlist
  obtain ⟨clause, hclause, hitem⟩ := List.mem_flatMap.mp hitem
  obtain ⟨hsymbol, hatoms⟩ := Bool.and_eq_true_iff.mp (List.all_eq_true.mp hclauses clause hclause)
  have hatom := List.all_eq_true.mp hatoms item hitem
  have htree := formulaTree_of_mem_operands clauseSymbol_junction
    (formulaTree_of_mem_operands listSymbol_junction he (beq_iff_eq.mp hroot) clause hclause)
    (beq_iff_eq.mp hsymbol) item hitem
  cases htree with
  | verum => exact Or.inl rfl
  | falsum => exact Or.inr (Or.inl rfl)
  | literal name positive => exact Or.inr (Or.inr (.literal name positive))
  | compare c hl hr => exact Or.inr (Or.inr (.compare c hl hr))
  | not | and | or | implies | equivalent => contradiction

theorem atoms_of_isClauseList (he : FormulaTree e) (hlist : e.isClauseList form = true) :
    e.atoms = (e.items form).flatMap atoms := by
  obtain ⟨hroot, hclauses⟩ := Bool.and_eq_true_iff.mp hlist
  rw [items_of_isClauseList hlist, List.flatMap_assoc]
  obtain ⟨s, es⟩ := e
  obtain rfl := beq_iff_eq.mp hroot
  rw [atoms_node, isProper_listSymbol]
  apply List.flatMap_congr
  intro clause hclause
  have := List.all_eq_true.mp hclauses clause hclause
  obtain ⟨t, fs⟩ := clause
  obtain rfl := beq_iff_eq.mp (Bool.and_eq_true_iff.mp this).1
  rw [atoms_node, isProper_clauseSymbol]
  rfl

theorem mem_atoms_of_item (he : FormulaTree e) (hlist : e.isClauseList form = true)
    {item : Expression} (hitem : item ∈ e.items form) (hproper : ProperAtom item) :
    item ∈ e.atoms := by
  rw [atoms_of_isClauseList he hlist]
  refine List.mem_flatMap.mpr ⟨item, hitem, ?_⟩
  rw [hproper.atoms_eq]
  exact List.mem_singleton_self _

theorem comparisons_of_isClauseList (he : FormulaTree e) (hlist : e.isClauseList form = true) :
    e.comparisons = (e.items form).filterMap fun item => item.symbol.comparison? := by
  rw [comparisons_eq, atoms_of_isClauseList he hlist, List.filterMap_flatMap,
    List.filterMap_eq_flatMap_toList]
  apply List.flatMap_congr
  intro item hitem
  rcases item_cases he hlist hitem with rfl | rfl | hproper
  · simp [atoms_node, Symbol.isProper, Symbol.comparison?]
  · simp [atoms_node, Symbol.isProper, Symbol.comparison?]
  · rw [hproper.atoms_eq, List.filterMap_cons, List.filterMap_nil]
    cases item.symbol.comparison? <;> rfl

theorem literalOf_of_mem_names {name : String} (hname : name ∈ m.names) (positive : Bool) :
    ∃ l, m.literalOf name positive = .ok l := by
  obtain ⟨i, hi⟩ := Option.isSome_iff_exists.mp (Numbering.indexOf?_isSome_iff.mpr hname)
  unfold Numbering.literalOf
  rw [hi]
  exact ⟨_, rfl⟩

/-- In a list of clauses all of whose names are numbered, only the comparisons are faults. -/
theorem itemFaults_of_isClauseList (he : FormulaTree e) (hlist : e.isClauseList form = true)
    (hnames : ∀ name, (⟨name, .truth⟩ : Variable) ∈ e.occurrences → name ∈ m.names) :
    (e.items form).filterMap (itemFault? m) =
      e.comparisons.map fun c => .notInClause (.compare c) := by
  rw [comparisons_of_isClauseList he hlist, List.map_filterMap]
  apply List.filterMap_congr
  intro item hitem
  rcases item_cases he hlist hitem with rfl | rfl | hproper
  · rfl
  · rfl
  · cases hproper with
    | compare c hl hr => rfl
    | literal name positive =>
        have hatom := mem_atoms_of_item he hlist hitem (.literal name positive)
        have hmem : (⟨name, .truth⟩ : Variable) ∈ e.occurrences :=
          (mem_occurrences_iff he).mpr
            ⟨_, hatom, by simp [occurrences_node, Symbol.occurrence?]⟩
        obtain ⟨l, hl⟩ := literalOf_of_mem_names (hnames name hmem) positive
        simp [itemFault?, itemLiteral, hl, Except.map, Faults.ofResult?, Symbol.comparison?]

/-- Under values for all variables, a literal is true exactly if its item is. -/
theorem makesTrue_of_literal? (hm : m.Valid) {item : Expression} {l : Int}
    (hitem : FormulaTree item) (hv : ∀ x ∈ item.occurrences, v.faultOf? x = none)
    (hl : item.literal? m = some l) : v.makesTrue m l = truthIn v.interpretation item := by
  obtain ⟨name, positive, hsymbol, hliteral⟩ := literalOf_of_literal? hl
  cases hitem with
  | literal =>
      cases hsymbol
      obtain ⟨hname, hsign⟩ := hm.nameOfLiteral?_of_literalOf hliteral
      have hvalue := Bindings.faultOf?_truth_iff.mp
        (hv ⟨name, .truth⟩ (by simp [occurrences_node, Symbol.occurrence?]))
      simp [Bindings.makesTrue, hname, hsign, hvalue, truthIn, Bool.beq_eq_decide_eq]
  | _ => cases hsymbol

/-- What a formula falls into at a junction is made of formulas over its variables. -/
theorem formulaTree_of_mem_parts {s : Symbol} (hs : s = .and ∨ s = .or) (he : FormulaTree e)
    (hf : f ∈ if e.symbol == s then e.operands else [e]) :
    FormulaTree f ∧ ∀ x ∈ f.occurrences, x ∈ e.occurrences := by
  split at hf
  · next hsymbol =>
      refine ⟨formulaTree_of_mem_operands hs he (beq_iff_eq.mp hsymbol) f hf, fun x hx => ?_⟩
      obtain ⟨t, es⟩ := e
      exact mem_occurrences_of_operand hf hx
  · obtain rfl := List.mem_singleton.mp hf
    exact ⟨he, fun _ hx => hx⟩

/-- The items of a formula of any shape are formulas over its variables. -/
theorem formulaTree_of_mem_items (he : FormulaTree e) {item : Expression}
    (hitem : item ∈ e.items form) :
    FormulaTree item ∧ ∀ x ∈ item.occurrences, x ∈ e.occurrences := by
  obtain ⟨clause, hclause, hitem⟩ := List.mem_flatMap.mp hitem
  obtain ⟨htree, hclauseVars⟩ := formulaTree_of_mem_parts listSymbol_junction he hclause
  obtain ⟨hitemTree, hitemVars⟩ := formulaTree_of_mem_parts clauseSymbol_junction htree hitem
  exact ⟨hitemTree, fun x hx => hclauseVars x (hitemVars x hx)⟩

/-- Under values for all variables, literals are true exactly if their items are. -/
theorem literalsAgree_of_faultless (hm : m.Valid) (he : FormulaTree e)
    (hv : ∀ x ∈ e.occurrences, v.faultOf? x = none)
    (hfaults : (e.items form).filterMap (itemFault? m) = []) :
    LiteralsAgree m (v.makesTrue m) v.interpretation (e.items form) := by
  intro item hitem
  obtain ⟨htree, hvars⟩ := formulaTree_of_mem_items he hitem
  exact ⟨List.filterMap_eq_nil_iff.mp hfaults item hitem, fun l hl =>
    makesTrue_of_literal? hm htree (fun x hx => hv x (hvars x hx)) hl⟩

end Expression

namespace Encoding

open Expression

variable {form : NormalForm} {e : Expression} {encoding : Encoding}

/-- An encoding numbers the names of a formula in the order of their first occurrence, and its
clauses are true exactly when the formula holds. -/
structure Faithful (form : NormalForm) (e : Expression) (encoding : Encoding) : Prop where
  names_eq : encoding.numbering.names = e.truthNames
  names_nodup : e.truthNames.Nodup
  mem_names : ∀ name, name ∈ e.truthNames ↔ (⟨name, .truth⟩ : Variable) ∈ e.vars
  indices_eq :
    encoding.numbering.indices = (List.range e.truthNames.length).map fun i : Nat => (i : Int) + 1
  reads_eq : ∀ (v : Bindings) (b : Bool), e.holds v = .ok b →
    form.reads (v.makesTrue encoding.numbering) encoding.clauses.toList = b

theorem truthNames_eraseDups (e : Expression) : e.truthNames.eraseDups = e.truthNames :=
  eraseDups_eq_self e.nodup_truthNames

/-- The faults of a normal form are its comparisons. -/
theorem toClauses_normalForm (form : NormalForm) (he : FormulaTree e) :
    (e.normalForm form).toClauses form (.ofExpression e) =
      Faults.barring ((e.normalForm form).comparisons.map fun c => .notInClause (.compare c))
        ⟨((e.normalForm form).clauseParts form).filterMap
          (clauseOf? form (.ofExpression e))⟩ := by
  have hnames : ∀ name, (⟨name, .truth⟩ : Variable) ∈ (e.normalForm form).occurrences →
      name ∈ (Numbering.ofExpression e).names := by
    intro name hname
    rw [Numbering.ofExpression, Numbering.names_ofNames, List.mem_eraseDups]
    exact mem_truthNames.mpr (mem_occurrences_normalForm form he hname)
  rw [toClauses_eq, itemFaults_of_isClauseList (formulaTree_normalForm form he)
    (isClauseList_normalForm form he) hnames]

theorem within_none_eq_ok_iff :
    within none form e = .ok encoding ↔
      (e.normalForm form).toClauses form (.ofExpression e) = .ok encoding.clauses ∧
        encoding.numbering = .ofExpression e := by
  change ofNormalForm form e (e.normalForm form) = _ ↔ _
  obtain ⟨clauses, m⟩ := encoding
  unfold ofNormalForm
  cases h : (e.normalForm form).toClauses form (.ofExpression e) with
  | ok => simp [h, eq_comm (a := m)]
  | error => simp [h]

theorem within_none_eq_error_iff {error : JobError} :
    within none form e = .error error ↔
      ∃ faults, (e.normalForm form).toClauses form (.ofExpression e) = .error faults ∧
        error = .extraction faults := by
  change ofNormalForm form e (e.normalForm form) = _ ↔ _
  unfold ofNormalForm
  cases h : (e.normalForm form).toClauses form (.ofExpression e) with
  | ok => simp [h]
  | error => simp [h, eq_comm]

theorem faithful_of_within (he : FormulaTree e) (h : within none form e = .ok encoding) :
    Faithful form e encoding := by
  obtain ⟨hclauses, hnumbering⟩ := within_none_eq_ok_iff.mp h
  have hnormal := formulaTree_normalForm form he
  have hvalid : encoding.numbering.Valid := hnumbering ▸ Numbering.valid_ofNames _
  have hfaults := hclauses
  rw [toClauses_eq, Faults.barring_eq_ok_iff] at hfaults
  constructor
  · rw [hnumbering, Numbering.ofExpression, Numbering.names_ofNames, truthNames_eraseDups]
  · exact e.nodup_truthNames
  · exact fun name => mem_truthNames.trans mem_vars.symm
  · rw [hnumbering, Numbering.ofExpression, Numbering.indices_ofNames, truthNames_eraseDups]
  · intro v b hv
    obtain ⟨hassigned, rfl⟩ := (holds_eq_ok_iff he).mp hv
    rw [← truthIn_normalForm form he]
    refine reads_toClauses (literalsAgree_of_faultless hvalid hnormal ?_ ?_)
      (hnumbering ▸ hclauses)
    · exact fun x hx => hassigned x (mem_vars.mpr (mem_occurrences_normalForm form he hx))
    · exact hnumbering ▸ hfaults.1

theorem exists_within_none_iff (he : FormulaTree e) :
    (∃ encoding, within none form e = .ok encoding) ↔ (e.normalForm form).comparisons = [] := by
  constructor
  · rintro ⟨encoding, h⟩
    have hclauses := (within_none_eq_ok_iff.mp h).1
    rw [toClauses_normalForm form he, Faults.barring_eq_ok_iff] at hclauses
    exact List.map_eq_nil_iff.mp hclauses.1
  · intro hnone
    have hclauses := toClauses_normalForm form he
    rw [hnone, List.map_nil, Faults.barring] at hclauses
    exact ⟨⟨_, .ofExpression e⟩, within_none_eq_ok_iff.mpr ⟨hclauses, rfl⟩⟩

/-- Without a limit a formula has an encoding exactly if its normal form has no comparisons, and all
of these are reported otherwise.  The encoding is faithful to the formula. -/
theorem within_none_spec (form : NormalForm) (he : e.WellFormed) (hformula : e.isFormula = true) :
    ((∃ encoding, within none form e = .ok encoding) ↔ (e.normalForm form).comparisons = []) ∧
      (e.comparisons = [] → (e.normalForm form).comparisons = []) ∧
      (∀ error, within none form e = .error error →
        ∃ faults : Faults, error = .extraction faults ∧
          faults.toList = (e.normalForm form).comparisons.map fun c => .notInClause (.compare c)) ∧
      ∀ encoding, within none form e = .ok encoding → Faithful form e encoding := by
  have htree := formulaTree_iff.mpr ⟨he, hformula⟩
  refine ⟨exists_within_none_iff htree, comparisons_normalForm form htree, ?_,
    fun _ => faithful_of_within htree⟩
  intro error h
  obtain ⟨faults, hfaults, rfl⟩ := within_none_eq_error_iff.mp h
  rw [toClauses_normalForm form htree, Faults.barring_eq_error_iff] at hfaults
  exact ⟨faults, rfl, hfaults.symm⟩

namespace EncodingWitness

/-- A formula in which one name vanishes: `(a | ~a) & (b => c)`. -/
def plain : Expression :=
  node .and [
    node .or [literal "a" true, literal "a" false],
    node .implies [literal "b" true, literal "c" true]]

def values : Bindings := ⟨[("a", .truth true), ("b", .truth true), ("c", .truth false)]⟩

theorem within_none_spec_plain :
    (plain.WellFormed ∧ plain.isFormula = true) ∧
      ∃ encoding, within none .cnf plain = .ok encoding ∧
        encoding.numbering.names = ["a", "b", "c"] ∧
        NormalForm.cnf.reads (values.makesTrue encoding.numbering) encoding.clauses.toList =
          false := by
  have hplain : plain.WellFormed := by decide +kernel
  have hnames : plain.truthNames = ["a", "b", "c"] := by decide +kernel
  have hvalue : plain.holds values = .ok false := by decide +kernel
  obtain ⟨hencoded, hcomparisons, -, hfaithful⟩ := within_none_spec .cnf hplain rfl
  obtain ⟨encoding, h⟩ := hencoded.mpr (hcomparisons (by decide +kernel))
  have faithful := hfaithful encoding h
  exact ⟨⟨hplain, rfl⟩, encoding, h, faithful.names_eq.trans hnames,
    faithful.reads_eq values false hvalue⟩

end EncodingWitness

end Encoding

end ClauseForm
