import ClauseForm.Proofs.Equivalence
import ClauseForm.Proofs.NegationShape
import ClauseForm.Proofs.Supervisors

/-!
Which formulas are recognised as normal forms, and what the recognition is for.

A formula is recognised if it is made of atoms, conjunctions and disjunctions, and the connective
that joins clauses never stands below the other one.  Such a formula is its own negation normal
form.  `isNormal_spec` says so, and that it therefore makes no difference to any observer that the
negation pass is left out for it; nor is a node ever expanded that negation normal forms do not
have.
-/

namespace ClauseForm

namespace Expression

variable {form : NormalForm} {e f g : Expression} {s : Symbol} {es : List Expression}

/-! ### Nodes below nodes -/

/-- A node stands somewhere below another one. -/
def StandsBelow (f g : Expression) : Prop := ∃ e ∈ g.operands, f ∈ e.preOrder

theorem mem_preOrder_node :
    f ∈ (node s es).preOrder ↔ f = node s es ∨ ∃ e ∈ es, f ∈ e.preOrder := by
  rw [preOrder_node, List.mem_cons, List.mem_flatMap]

/-- The nodes of a part are nodes of the whole. -/
theorem mem_preOrder_trans {e : Expression} (hf : f ∈ g.preOrder) (hg : g ∈ e.preOrder) :
    f ∈ e.preOrder := by
  match e with
  | node s es =>
      rcases mem_preOrder_node.mp hg with rfl | ⟨e, he, hg⟩
      · exact hf
      · exact mem_preOrder_node.mpr (Or.inr ⟨e, he, mem_preOrder_trans hf hg⟩)

theorem StandsBelow.mem_preOrder (h : f.StandsBelow g) : f ∈ g.preOrder := by
  obtain ⟨s, es⟩ := g
  exact mem_preOrder_node.mpr (Or.inr h)

theorem TermTree.category_of_mem (he : TermTree e) :
    ∀ n ∈ e.preOrder, n.symbol.category = .term := by
  induction he with
  | unknown | constant => simp [preOrder_node, Symbol.category]
  | sum hne hes ih | product hne hes ih =>
      intro n hn
      rcases mem_preOrder_node.mp hn with rfl | ⟨e, he, hn⟩
      · rfl
      · exact ih e he n hn

/-- Below an atom there are terms only. -/
theorem ProperAtom.symbol_of_mem (he : ProperAtom e) :
    ∀ n ∈ e.preOrder, n.symbol.isAtom = true ∨ n.symbol.category = .term := by
  cases he with
  | literal => simp [preOrder_node, Symbol.isAtom]
  | compare c hl hr =>
      intro n hn
      rcases mem_preOrder_node.mp hn with rfl | ⟨t, ht, hbelow⟩
      · exact Or.inl rfl
      · rcases List.mem_pair.mp ht with rfl | rfl
        · exact Or.inr (hl.category_of_mem n hbelow)
        · exact Or.inr (hr.category_of_mem n hbelow)

/-- A formula in negation normal form has no other symbols than those of terms and atoms and the two
connectives. -/
theorem NnfTree.symbol_of_mem (he : NnfTree e) :
    ∀ n ∈ e.preOrder, n.symbol.isAtom = true ∨ n.symbol.category = .term ∨
      n.symbol = .and ∨ n.symbol = .or := by
  induction he with
  | verum | falsum => simp [preOrder_node, Symbol.isAtom]
  | atom ha => exact fun n hn => (ha.symbol_of_mem n hn).imp_right Or.inl
  | and hes ih | or hes ih =>
      intro n hn
      rcases mem_preOrder_node.mp hn with rfl | ⟨e, he, hn⟩
      · simp
      · exact ih e he n hn

/-! ### The layers of a normal form -/

/-- Nothing in a formula joins clauses. -/
def IsInner (form : NormalForm) (e : Expression) : Prop :=
  ∀ n ∈ e.preOrder, n.symbol ≠ form.listSymbol

/-- What joins clauses never stands below the connective of a clause. -/
def IsLayered (form : NormalForm) (e : Expression) : Prop :=
  ∀ g ∈ e.preOrder, g.symbol = form.clauseSymbol →
    ∀ f : Expression, f.StandsBelow g → f.symbol ≠ form.listSymbol

theorem IsInner.isLayered (h : e.IsInner form) : e.IsLayered form :=
  fun _ hg _ f hf => h f (mem_preOrder_trans hf.mem_preOrder hg)

theorem isInner_node (hs : s ≠ form.listSymbol) :
    (node s es).IsInner form ↔ ∀ e ∈ es, e.IsInner form := by
  constructor
  · exact fun h e he n hn => h n (mem_preOrder_node.mpr (Or.inr ⟨e, he, hn⟩))
  · intro h n hn
    rcases mem_preOrder_node.mp hn with rfl | ⟨e, he, hn⟩
    · exact hs
    · exact h e he n hn

theorem not_isInner_listSymbol : ¬ (node form.listSymbol es).IsInner form :=
  fun h => h _ (mem_preOrder_node.mpr (Or.inl rfl)) rfl

theorem isLayered_listSymbol :
    (node form.listSymbol es).IsLayered form ↔ ∀ e ∈ es, e.IsLayered form := by
  constructor
  · exact fun h e he g hg => h g (mem_preOrder_node.mpr (Or.inr ⟨e, he, hg⟩))
  · intro h g hg hclause
    rcases mem_preOrder_node.mp hg with rfl | ⟨e, he, hg⟩
    · exact absurd hclause listSymbol_ne_clauseSymbol
    · exact h e he g hg hclause

theorem isLayered_clauseSymbol :
    (node form.clauseSymbol es).IsLayered form ↔ ∀ e ∈ es, e.IsInner form := by
  constructor
  · exact fun h e he f hf => h _ (mem_preOrder_node.mpr (Or.inl rfl)) rfl f ⟨e, he, hf⟩
  · exact fun h => ((isInner_node listSymbol_ne_clauseSymbol.symm).mpr h).isLayered

/-! ### What the recogniser computes -/

/-- A list of clauses is recognised as a normal form, whatever it consists of. -/
theorem belongs_of_isClauseList (h : e.isClauseList form = true) :
    e.belongs form false = true := by
  obtain ⟨s, clauses⟩ := e
  obtain ⟨hs, hclauses⟩ := Bool.and_eq_true_iff.mp h
  obtain rfl : s = form.listSymbol := by simpa using hs
  rw [belongs_listSymbol, Bool.not_false, Bool.true_and, List.all_eq_true]
  rintro ⟨t, items⟩ hclause
  obtain ⟨ht, hitems⟩ := Bool.and_eq_true_iff.mp (List.all_eq_true.mp hclauses _ hclause)
  obtain rfl : t = form.clauseSymbol := by simpa using ht
  rw [belongs_clauseSymbol, List.all_eq_true]
  rintro ⟨u, ts⟩ hitem
  exact belongs_atom (List.all_eq_true.mp hitems _ hitem)

theorem isNormal_eq (form : NormalForm) (e : Expression) :
    e.isNormal form = e.belongs form false := by
  rw [isNormal, ← belongs]
  cases hlist : e.isClauseList form with
  | false => exact Bool.false_or _
  | true => rw [belongs_of_isClauseList hlist, Bool.true_or]

/-- A formula belongs inside a clause exactly if it joins no clauses, and it belongs into a normal
form exactly if it is layered. -/
structure Recognised (form : NormalForm) (e : Expression) : Prop where
  inner_iff : e.belongs form true = true ↔ e.IsInner form
  layered_iff : e.belongs form false = true ↔ e.IsLayered form

theorem recognised_of_isInner (hbelongs : ∀ inside, e.belongs form inside = true)
    (h : e.IsInner form) : Recognised form e where
  inner_iff := iff_of_true (hbelongs true) h
  layered_iff := iff_of_true (hbelongs false) h.isLayered

theorem recognised_listSymbol (hes : ∀ e ∈ es, Recognised form e) :
    Recognised form (node form.listSymbol es) where
  inner_iff := by
    rw [belongs_listSymbol, Bool.not_true, Bool.false_and]
    exact iff_of_false Bool.false_ne_true not_isInner_listSymbol
  layered_iff := by
    rw [belongs_listSymbol, Bool.not_false, Bool.true_and, List.all_eq_true, isLayered_listSymbol]
    exact forall₂_congr fun e he => (hes e he).layered_iff

theorem recognised_clauseSymbol (hes : ∀ e ∈ es, Recognised form e) :
    Recognised form (node form.clauseSymbol es) := by
  have operands : es.all (·.belongs form true) = true ↔ ∀ e ∈ es, e.IsInner form :=
    List.all_eq_true.trans (forall₂_congr fun e he => (hes e he).inner_iff)
  constructor
  · rw [belongs_clauseSymbol, operands, isInner_node listSymbol_ne_clauseSymbol.symm]
  · rw [belongs_clauseSymbol, operands, isLayered_clauseSymbol]

theorem recognised_of_nnfTree (form : NormalForm) (he : NnfTree e) : Recognised form e := by
  have inner : ∀ {a : Expression}, (∀ n ∈ a.preOrder, n.symbol.isAtom = true ∨
      n.symbol.category = .term) → a.IsInner form := by
    intro a ha n hn hlist
    have hsymbol := ha n hn
    rw [hlist] at hsymbol
    revert hsymbol
    cases form <;> decide
  induction he with
  | verum | falsum =>
      exact recognised_of_isInner (fun _ => belongs_atom rfl)
        (inner (by simp [preOrder_node, Symbol.isAtom]))
  | @atom a ha =>
      obtain ⟨s, es⟩ := a
      exact recognised_of_isInner (fun _ => belongs_atom ha.isAtom) (inner ha.symbol_of_mem)
  | and hes ih =>
      cases form with
      | cnf => exact recognised_listSymbol ih
      | dnf => exact recognised_clauseSymbol ih
  | or hes ih =>
      cases form with
      | cnf => exact recognised_clauseSymbol ih
      | dnf => exact recognised_listSymbol ih

theorem belongs_of_term (he : TermTree e) : e.belongs form false = false := by
  cases he <;> exact belongs_stray rfl (by cases form <;> simp [NormalForm.listSymbol])
    (by cases form <;> simp [NormalForm.clauseSymbol])

/-- A well-formed expression is recognised exactly if it is a layered formula of atoms, conjunctions
and disjunctions. -/
theorem isNormal_iff (he : e.WellFormed) :
    e.isNormal form = true ↔ NnfTree e ∧ e.IsLayered form := by
  rw [isNormal_eq]
  constructor
  · intro h
    rcases he.formula_or_term with hformula | hterm
    · have tree := nnfTree_of_belongs hformula h
      exact ⟨tree, (recognised_of_nnfTree form tree).layered_iff.mp h⟩
    · rw [belongs_of_term hterm] at h
      contradiction
  · rintro ⟨tree, hlayered⟩
    exact (recognised_of_nnfTree form tree).layered_iff.mpr hlayered

/-! ### The way to a normal form without the shortcut -/

section Expansion

variable {m : Type → Type} [Monad m]

/-- The normal form of an expression by way of the negation normal form, also where that changes
nothing. -/
def normalFormByNnfM (form : NormalForm) (observer : Observer m) (e : Expression) : m Expression :=
  if e.isTerm || e.isClauseList form then pure e else clauseListM form observer e.nnf

/-- The clauses of a node, with something else done at the nodes that negation normal forms do not
have. -/
def nodeClausesOr (stray : Expression → StateT Atoms m (List Clause)) (form : NormalForm)
    (observer : Observer m) (e : Expression) (parts : List (List Clause)) :
    StateT Atoms m (List Clause) :=
  match e.symbol with
  | .not | .implies | .equivalent => do
    observer.checkpoint
    stray e
  | _ => nodeClauses form observer e parts

/-- The normal form of an expression, with something else done at stray nodes. -/
def normalFormOrM (stray : Expression → StateT Atoms m (List Clause)) (form : NormalForm)
    (observer : Observer m) (e : Expression) : m Expression :=
  if e.isTerm || e.isClauseList form then pure e
  else do
    let (clauses, atoms) ←
      ((e.expansionBase form).foldM (nodeClausesOr stray form observer)).run .empty
    pure (ofClauses form atoms clauses)

theorem normalFormM_eq_byNnf (he : e.WellFormed) (observer : Observer m) :
    e.normalFormM form observer = e.normalFormByNnfM form observer := by
  unfold normalFormM normalFormByNnfM
  split
  · rfl
  · split
    · next hnormal => rw [nnf_of_nnfTree ((isNormal_iff he).mp hnormal).1]
    · rfl

theorem mapM_congr_of_mem [LawfulMonad m] {α β : Type} {f g : α → m β} {as : List α}
    (h : ∀ a ∈ as, f a = g a) : as.mapM f = as.mapM g := by
  induction as with
  | nil => rfl
  | cons a as ih =>
      obtain ⟨hfirst, hrest⟩ := List.forall_mem_cons.mp h
      rw [List.mapM_cons, List.mapM_cons, hfirst, ih hrest]

/-- A fold does not depend on what a visit would do at nodes that the tree does not have. -/
theorem foldM_congr [LawfulMonad m] {β : Type} {visit other : Expression → List β → m β}
    {e : Expression} (h : ∀ n ∈ e.preOrder, visit n = other n) : e.foldM visit = e.foldM other := by
  match e with
  | node s es =>
      have operands : ∀ e ∈ es, e.foldM visit = e.foldM other := fun e he =>
        foldM_congr fun n hn => h n (mem_preOrder_node.mpr (Or.inr ⟨e, he, hn⟩))
      rw [foldM_node, foldM_node, mapM_congr_of_mem operands,
        h (node s es) (mem_preOrder_node.mpr (Or.inl rfl))]

/-- The expansion of a well-formed expression meets no stray nodes. -/
theorem normalFormOrM_eq [LawfulMonad m] (he : e.WellFormed)
    (stray : Expression → StateT Atoms m (List Clause)) (observer : Observer m) :
    e.normalFormOrM stray form observer = e.normalFormM form observer := by
  unfold normalFormOrM normalFormM
  split
  · rfl
  · next h =>
      have hexpanded := Bool.eq_false_iff.mpr h
      have hbase := nnfTree_expansionBase (he.formula_of_expanded hexpanded)
        (Bool.or_eq_false_iff.mp hexpanded).2
      have hnodes : ∀ n ∈ (e.expansionBase form).preOrder,
          nodeClausesOr stray form observer n = nodeClauses form observer n := by
        intro n hn
        have hsymbol := hbase.symbol_of_mem n hn
        funext parts
        unfold nodeClausesOr
        split <;> simp_all [Symbol.isAtom, Symbol.category]
      rw [foldM_congr hnodes]
      rfl

end Expansion

/-- What the recognisers of normal forms decide, and what follows for the expansion.  A list of
clauses is a normal form; a normal form is a formula of atoms, conjunctions and disjunctions, in
which what joins clauses never stands below the connective of a clause; and it is its own negation
normal form.  So every observer and every supervisor sees the same as if the negation normal form
were always made first, and whatever would be done at a node that negation normal forms do not
have is never done. -/
theorem isNormal_spec (form : NormalForm) (he : e.WellFormed) :
    (e.isClauseList form = true → e.isNormal form = true) ∧
      (e.isNormal form = true ↔ NnfTree e ∧ e.IsLayered form) ∧
      (e.isNormal form = true → e.inNnf = true ∧ e.nnf = e) ∧
      (∀ {σ : Type} (s : Supervisor σ) (state : σ),
        e.normalFormUnder s state form =
          s.supervise state fun observer => e.normalFormByNnfM form observer) ∧
      ∀ {m : Type → Type} [Monad m] [LawfulMonad m] (observer : Observer m),
        e.normalFormM form observer = e.normalFormByNnfM form observer ∧
          ∀ stray, e.normalFormOrM stray form observer = e.normalFormM form observer := by
  refine ⟨?_, isNormal_iff he, ?_, ?_, ?_⟩
  · intro hlist
    rw [isNormal_eq]
    exact belongs_of_isClauseList hlist
  · intro hnormal
    obtain ⟨tree, -⟩ := (isNormal_iff he).mp hnormal
    exact ⟨tree.inNnf_eq, nnf_of_nnfTree tree⟩
  · intro σ s state
    exact congrArg (s.supervise state) (funext fun observer => normalFormM_eq_byNnf he observer)
  · intro m _ _ observer
    exact ⟨normalFormM_eq_byNnf he observer, fun stray => normalFormOrM_eq he stray observer⟩

namespace NormalShapeWitness

/-- A conjunction in a conjunction, and a disjunction that holds an empty one: normal as
conjunctions of disjunctions go, but no list of clauses, and not normal the other way round. -/
def sample : Expression :=
  node .and [
    node .and [literal "a" true, node .verum []],
    node .or [
      node .or [],
      node (.compare .less) [unknown "x", node .product [constant 2, unknown "y"]],
      literal "b" false]]

theorem isNormal_spec_sample :
    sample.WellFormed ∧ sample.isClauseList .cnf = false ∧
      NnfTree sample ∧ sample.IsLayered .cnf ∧ ¬ sample.IsLayered .dnf ∧ sample.nnf = sample ∧
      (∀ flag, sample.normalFormUnder Supervisor.cancellation flag .cnf =
        Supervisor.cancellation.supervise flag fun o => sample.normalFormByNnfM .cnf o) ∧
      sample.normalFormOrM (fun _ => pure [Literals.empty]) .cnf (Observer.silent (m := Id)) =
        sample.normalFormM .cnf Observer.silent := by
  have hsample : sample.WellFormed := by decide +kernel
  have hnormal : sample.isNormal .cnf = true := by decide +kernel
  have hother : sample.isNormal .dnf = false := by decide +kernel
  obtain ⟨-, hshape, hsame, hsupervised, hobserved⟩ := isNormal_spec .cnf hsample
  obtain ⟨tree, hlayered⟩ := hshape.mp hnormal
  refine ⟨hsample, by decide +kernel, tree, hlayered, fun hdual => ?_, (hsame hnormal).2,
    hsupervised _, (hobserved Observer.silent).2 _⟩
  rw [(isNormal_spec .dnf hsample).2.1.mpr ⟨tree, hdual⟩] at hother
  contradiction

end NormalShapeWitness

end Expression

end ClauseForm
