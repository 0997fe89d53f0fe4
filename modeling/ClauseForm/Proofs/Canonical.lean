import ClauseForm.Proofs.AtomOrder
import ClauseForm.Proofs.CleanClauses
import ClauseForm.Proofs.Equivalence

/-!
Normal forms are canonical.

The clauses of an expansion are clean and pairwise different, so no clause of a normal form repeats
an atom or holds it together with its opposite, and no two clauses have the same atoms.  Within a
clause the atoms stand as they first occur in the negation normal form.  `normalForm_canonical`
collects this; lists of clauses are left as they are, and so a normal form is its own.
-/

namespace ClauseForm

namespace Clause

variable {c : Clause}

/-- The literals of a clause by index. -/
def byIndex (c : Clause) : List Int := c.toList.mergeSort fun a b => decide (a.natAbs ≤ b.natAbs)

theorem mem_byIndex {l : Int} : l ∈ c.byIndex ↔ l ∈ c.toList := List.mem_mergeSort

/-- In a clean clause each index occurs once. -/
theorem Clean.eq_of_natAbs_eq (hc : c.Clean) {k l : Int} (hk : k ∈ c.toList) (hl : l ∈ c.toList)
    (hnonzero : l ≠ 0) (h : k.natAbs = l.natAbs) : k = l := by
  rcases Int.natAbs_eq_natAbs_iff.mp h with hsame | hopposite
  · exact hsame
  · exact absurd (opposed_iff.mpr ⟨l, hl, hnonzero, hopposite ▸ hk⟩) hc.unopposed

theorem Clean.pairwise_byIndex (hc : c.Clean) (hnonzero : ∀ l ∈ c.toList, l ≠ 0) :
    c.byIndex.Pairwise fun a b => a.natAbs < b.natAbs := by
  have hordered : c.byIndex.Pairwise fun a b => decide (a.natAbs ≤ b.natAbs) = true := by
    refine List.pairwise_mergeSort (fun a b c hab hbc => ?_) (fun a b => ?_) c.toList
    · simp only [decide_eq_true_eq] at hab hbc ⊢
      exact Nat.le_trans hab hbc
    · simpa using Nat.le_total a.natAbs b.natAbs
  have hnodup : c.byIndex.Nodup :=
    (List.mergeSort_perm c.toList _).nodup_iff.mpr (hc.increasing.imp Int.ne_of_lt)
  refine (hordered.and hnodup).imp_of_mem fun {a b} ha hb h => ?_
  have hdiffer : a.natAbs ≠ b.natAbs := fun hsame => h.2 (hc.eq_of_natAbs_eq (mem_byIndex.mp ha)
    (mem_byIndex.mp hb) (hnonzero b (mem_byIndex.mp hb)) hsame)
  exact Nat.lt_of_le_of_ne (of_decide_eq_true h.1) hdiffer

end Clause

namespace Expression

variable {form : NormalForm} {e source : Expression} {u : Atoms} {c : Clause}
  {clauses : List Clause}

/-- A clause over the atoms of a formula and their opposites: each atom once, none together with
its opposite, and in the order of their places in the formula. -/
structure CanonicalClause (source clause : Expression) : Prop where
  nonconstant : ∀ a ∈ clause.operands, a.symbol.isTruthConstant = false
  mentioned : ∀ a ∈ clause.operands, source.Mentions a
  nodup : clause.operands.Nodup
  unopposed : ∀ a ∈ clause.operands, a.opposite ∉ clause.operands
  ordered : clause.operands.Pairwise fun a b => source.place a < source.place b

/-- A list of such clauses, of which no two have the same atoms, and an empty one stands alone. -/
structure Canonical (source list : Expression) : Prop where
  clauses : ∀ clause ∈ list.operands, CanonicalClause source clause
  distinct : list.operands.Pairwise fun c d => ¬ ∀ a, a ∈ c.operands ↔ a ∈ d.operands
  alone : ∀ clause ∈ list.operands, clause.operands = [] → list.operands = [clause]

theorem operands_ofClause : (ofClause form u c).operands = c.byIndex.map u.atomOf := rfl

theorem mem_operands_ofClause {a : Expression} :
    a ∈ (ofClause form u c).operands ↔ ∃ l ∈ c.toList, u.atomOf l = a := by
  rw [operands_ofClause, List.mem_map]
  exact exists_congr fun l => and_congr_left' Clause.mem_byIndex

/-- If the atoms of one clause are among those of another, so are its literals. -/
theorem subset_of_operands_subset {d : Clause} (hu : u.Valid) (hc : ∀ l ∈ c.toList, u.Knows l)
    (hd : ∀ l ∈ d.toList, u.Knows l)
    (h : (ofClause form u c).operands ⊆ (ofClause form u d).operands) : c.toList ⊆ d.toList := by
  intro l hl
  obtain ⟨k, hk, hatom⟩ := mem_operands_ofClause.mp (h (mem_operands_ofClause.mpr ⟨l, hl, rfl⟩))
  exact hu.atomOf_injective (hd k hk) (hc l hl) hatom ▸ hk

theorem ProperAtom.isTruthConstant_eq {a : Expression} (ha : ProperAtom a) :
    a.symbol.isTruthConstant = false := by
  cases ha <;> rfl

/-- The formula of a clean clause is canonical if the numbers of the atoms follow their places. -/
theorem canonicalClause_ofClause (hu : u.Valid) (hc : c.Clean) (hknows : ∀ l ∈ c.toList, u.Knows l)
    (hmentions : ∀ l, u.Knows l → source.Mentions (u.atomOf l))
    (hplaces : ∀ k l, u.Knows k → u.Knows l → k.natAbs < l.natAbs →
      source.place (u.atomOf k) < source.place (u.atomOf l)) :
    CanonicalClause source (ofClause form u c) := by
  have hindices := hc.pairwise_byIndex fun l hl => (hknows l hl).1
  have hknown : ∀ l ∈ c.byIndex, u.Knows l := fun l hl => hknows l (Clause.mem_byIndex.mp hl)
  constructor
  · intro a ha
    obtain ⟨l, hl, rfl⟩ := mem_operands_ofClause.mp ha
    exact (hu.properAtom_atomOf (hknows l hl)).isTruthConstant_eq
  · intro a ha
    obtain ⟨l, hl, rfl⟩ := mem_operands_ofClause.mp ha
    exact hmentions l (hknows l hl)
  · rw [operands_ofClause, List.Nodup, List.pairwise_map]
    refine hindices.imp_of_mem fun {k l} hk hl hless hsame => ?_
    obtain rfl := hu.atomOf_injective (hknown k hk) (hknown l hl) hsame
    exact Nat.lt_irrefl _ hless
  · intro a ha hopposite
    obtain ⟨l, hl, rfl⟩ := mem_operands_ofClause.mp ha
    obtain ⟨k, hk, hatom⟩ := mem_operands_ofClause.mp hopposite
    rw [← hu.atomOf_neg (hknows l hl)] at hatom
    obtain rfl := hu.atomOf_injective (hknows k hk) (hknows l hl).neg hatom
    exact hc.unopposed (Clause.opposed_iff.mpr ⟨l, hl, (hknows l hl).1, hk⟩)
  · rw [operands_ofClause, List.pairwise_map]
    exact hindices.imp_of_mem fun {k l} hk hl hless =>
      hplaces k l (hknown k hk) (hknown l hl) hless

/-- The formula of clean clauses is canonical if the formulas of the clauses are. -/
theorem canonical_ofClauses (hu : u.Valid) (hclean : ∀ c ∈ clauses, c.Clean)
    (hknows : ∀ c ∈ clauses, ∀ l ∈ c.toList, u.Knows l)
    (hclauses : ∀ c ∈ clauses, CanonicalClause source (ofClause form u c)) :
    Canonical source (ofClauses form u clauses) := by
  rw [ofClauses_eq]
  split
  · exact {
      clauses := by
        refine List.forall_mem_singleton.mpr ?_
        constructor <;> simp
      distinct := List.pairwise_singleton ..
      alone := fun clause hclause _ => by rw [List.mem_singleton.mp hclause, operands_node] }
  · next hnonempty =>
      have hold : ∀ c ∈ clauses.eraseDups, c ∈ clauses := fun c => List.mem_eraseDups.mp
      exact {
        clauses := List.forall_mem_map.mpr fun c hc => hclauses c (hold c hc)
        distinct := by
          rw [operands_node, List.pairwise_map]
          refine (nodup_eraseDups clauses).imp_of_mem fun {c d} hc hd hdiffer hsame => ?_
          have hknown : ∀ c ∈ clauses.eraseDups, ∀ l ∈ c.toList, u.Knows l := fun c hc =>
            hknows c (hold c hc)
          have hforth := subset_of_operands_subset hu (hknown c hc) (hknown d hd) fun a =>
            (hsame a).mp
          have hback := subset_of_operands_subset hu (hknown d hd) (hknown c hc) fun a =>
            (hsame a).mpr
          exact hdiffer ((hclean c (hold c hc)).increasing.eq_of_mem_iff
            (hclean d (hold d hd)).increasing fun l => ⟨@hforth l, @hback l⟩)
        alone := by
          rintro _ hclause hempty
          obtain ⟨c, hc, rfl⟩ := List.mem_map.mp hclause
          rw [operands_ofClause, List.map_eq_nil_iff] at hempty
          have hnil : c.toList = [] := by
            rw [List.eq_nil_iff_forall_not_mem] at hempty ⊢
            exact fun l hl => hempty l (Clause.mem_byIndex.mpr hl)
          refine absurd (List.any_eq_true.mpr ⟨c, hold c hc, ?_⟩) hnonempty
          simpa [Literals.isEmpty, Literals.toList] using hnil }

/-- What an expansion ends with is canonical. -/
theorem canonical_expand (form : NormalForm) (he : NnfTree e) :
    Canonical e (ofClauses form (expand form e .empty).2 (expand form e .empty).1) := by
  have expanded : Expanded form .empty (expand form e .empty).2 e (expand form e .empty).1 :=
    expanded_of_nnfTree he Atoms.valid_empty
  have hclean : ∀ c ∈ (expand form e .empty).1, c.Clean := clean_of_mem_expand he .empty
  refine canonical_ofClauses expanded.valid hclean expanded.knows fun c hc =>
    canonicalClause_ofClause expanded.valid (hclean c hc) (expanded.knows c hc) ?_ ?_
  · intro l hl
    obtain ⟨b, hb, hatom⟩ := hl.exists_atom
    have hmem := List.mem_of_getElem? hb
    have hmentions : e.Mentions b :=
      (expanded.mem_old b hmem).resolve_left (by simp [Atoms.empty])
    rw [hatom]
    split
    · exact hmentions
    · exact hmentions.opposite (expanded.valid.proper b hmem)
  · exact fun k l => place_lt_place he

/-- The normal form of a formula is a well-formed list of clauses and its own normal form.  A list
of clauses is left as it is.  The normal form of every other formula is canonical: no constants, no
atom twice in a clause or together with its opposite, no two clauses with the same atoms, an empty
clause only alone, and in each clause the atoms in the order in which they, or their opposites,
first occur in the negation normal form. -/
theorem normalForm_canonical (form : NormalForm) (he : e.WellFormed)
    (hformula : e.isFormula = true) :
    (e.normalForm form).WellFormed ∧ (e.normalForm form).isClauseList form = true ∧
      (e.normalForm form).normalForm form = e.normalForm form ∧
      (e.isClauseList form = true → e.normalForm form = e) ∧
      (e.isClauseList form = false → Canonical e.nnf (e.normalForm form)) := by
  have tree : FormulaTree e := formulaTree_iff.mpr ⟨he, hformula⟩
  have hlist := isClauseList_normalForm form tree
  refine ⟨(formulaTree_normalForm form tree).wellFormed, hlist, normalForm_of_isClauseList hlist,
    normalForm_of_isClauseList, ?_⟩
  intro hother
  have hterm : e.isTerm = false := by rw [isTerm, tree.category_eq]; rfl
  rw [normalForm_eq, hterm, hother, nnf_expansionBase tree hother]
  exact canonical_expand form (nnfTree_expansionBase tree hother)

namespace CanonicalWitness

/-- A conjunction in a disjunction, with a comparison and its opposite, a repeated name and an
empty conjunction. -/
def sample : Expression :=
  node .or [
    node .and [
      node .or [literal "b" true, node (.compare .greaterOrEqual) [unknown "x", constant 1]],
      literal "a" false],
    node .not [node .implies [
      node (.compare .less) [unknown "x", constant 1],
      node .and [literal "b" false, node .and []]]]]

theorem normalForm_canonical_sample :
    sample.WellFormed ∧ sample.isFormula = true ∧ sample.isClauseList .cnf = false ∧
      (sample.normalForm .cnf).WellFormed ∧ (sample.normalForm .cnf).isClauseList .cnf = true ∧
      (sample.normalForm .cnf).normalForm .cnf = sample.normalForm .cnf ∧
      Canonical sample.nnf (sample.normalForm .cnf) := by
  have hsample : sample.WellFormed := by decide +kernel
  have hother : sample.isClauseList .cnf = false := by decide +kernel
  obtain ⟨hwellFormed, hlist, hstable, -, hcanonical⟩ := normalForm_canonical .cnf hsample rfl
  exact ⟨hsample, rfl, hother, hwellFormed, hlist, hstable, hcanonical hother⟩

end CanonicalWitness

end Expression

end ClauseForm
