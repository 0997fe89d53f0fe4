import ClauseForm.Proofs.AtomTable
import ClauseForm.Proofs.Negation
import ClauseForm.Proofs.ProductReports

/-!
Expansion into a normal form keeps what a formula means.

Without an observer the fold over a formula is a function `expand` from tables to clauses and later
tables.  What it does at one node is `Expanded`, and `expanded_of_nnfTree` carries this from the
operands to the whole tree.
-/

namespace ClauseForm

namespace Expression

/-- The clauses of a formula over the atoms of a table, and the table with its atoms added. -/
def expand (form : NormalForm) (e : Expression) (t : Atoms) : List Clause × Atoms :=
  Id.run ((e.foldM (nodeClauses form (Observer.silent (m := Id)))).run t)

/-- The clause lists of some formulas, one after the other. -/
def expandAll (form : NormalForm) (es : List Expression) (t : Atoms) :
    List (List Clause) × Atoms :=
  Id.run ((es.mapM (foldM (nodeClauses form (Observer.silent (m := Id))))).run t)

variable {form : NormalForm} {t u w : Atoms}

theorem expandAll_nil : expandAll form [] t = ([], t) := rfl

theorem expandAll_cons (e : Expression) (es : List Expression) :
    expandAll form (e :: es) t =
      ((expand form e t).1 :: (expandAll form es (expand form e t).2).1,
        (expandAll form es (expand form e t).2).2) := by
  simp [expandAll, expand]

theorem expand_node (s : Symbol) (es : List Expression) :
    expand form (node s es) t =
      Id.run ((nodeClauses form (Observer.silent (m := Id)) (node s es)
        (expandAll form es t).1).run (expandAll form es t).2) := by
  simp [expand, expandAll, foldM_node]

theorem productOf_silent (factors : List (List Clause)) :
    Id.run (productOf Observer.silent factors) = Clause.products factors :=
  (scripted_productOf (m := Id) Observer.silent factors).eq_pure

theorem expand_verum : expand form (node .verum []) t =
    (match form with | .cnf => [] | .dnf => [Literals.empty], t) := by
  rw [expand_node]
  cases form <;> rfl

theorem expand_falsum : expand form (node .falsum []) t =
    (match form with | .cnf => [Literals.empty] | .dnf => [], t) := by
  rw [expand_node]
  cases form <;> rfl

theorem expand_and (es : List Expression) : expand form (node .and es) t =
    (match form with
      | .cnf => (expandAll form es t).1.flatten
      | .dnf => Clause.products (expandAll form es t).1, (expandAll form es t).2) := by
  rw [expand_node]
  cases form with
  | cnf => rfl
  | dnf =>
      rw [← productOf_silent]
      rfl

theorem expand_or (es : List Expression) : expand form (node .or es) t =
    (match form with
      | .cnf => Clause.products (expandAll form es t).1
      | .dnf => (expandAll form es t).1.flatten, (expandAll form es t).2) := by
  rw [expand_node]
  cases form with
  | cnf =>
      rw [← productOf_silent]
      rfl
  | dnf => rfl

theorem expand_listSymbol (es : List Expression) :
    expand form (node form.listSymbol es) t =
      ((expandAll form es t).1.flatten, (expandAll form es t).2) := by
  cases form with
  | cnf => exact expand_and es
  | dnf => exact expand_or es

theorem expand_clauseSymbol (es : List Expression) :
    expand form (node form.clauseSymbol es) t =
      (Clause.products (expandAll form es t).1, (expandAll form es t).2) := by
  cases form with
  | cnf => exact expand_or es
  | dnf => exact expand_and es

/-- The nodes of terms have no clauses and leave the table as it is. -/
theorem expand_term {e : Expression} (he : TermTree e) : expand form e t = ([], t) := by
  induction he with
  | unknown | constant =>
      rw [expand_node]
      rfl
  | @sum es hne hes ih | @product es hne hes ih =>
      have operands : (expandAll form es t).2 = t := by
        clear hne hes
        induction es with
        | nil => rfl
        | cons e es ihs =>
            rw [expandAll_cons, ih e List.mem_cons_self]
            exact ihs fun e he => ih e (List.mem_cons_of_mem _ he)
      rw [expand_node, operands]
      rfl

theorem expand_atom {a : Expression} (ha : ProperAtom a) :
    expand form a t = ([Literals.arranged [(t.literalOf a).1]], (t.literalOf a).2) := by
  cases ha with
  | literal name positive => rw [expand_node]; rfl
  | compare c hl hr =>
      rw [expand_node, expandAll_cons, expandAll_cons, expand_term hl, expand_term hr]
      rfl

/-- What the clauses of a formula over a later table have to do with the formula. -/
structure Expanded (form : NormalForm) (t u : Atoms) (e : Expression) (clauses : List Clause) :
    Prop where
  valid : u.Valid
  extends_old : u.Extends t
  knows : ∀ c ∈ clauses, ∀ l ∈ c.toList, u.Knows l
  reads_eq : ∀ ι, form.reads (u.truth ι) clauses = truthIn ι e
  mem_old : ∀ a ∈ u.atoms.toList, a ∈ t.atoms.toList ∨ e.Mentions a

/-- The same for some formulas, one after the other. -/
structure AllExpanded (form : NormalForm) (t u : Atoms) (es : List Expression)
    (parts : List (List Clause)) : Prop where
  valid : u.Valid
  extends_old : u.Extends t
  knows : ∀ clauses ∈ parts, ∀ c ∈ clauses, ∀ l ∈ c.toList, u.Knows l
  reads_eq : ∀ ι, parts.map (form.reads (u.truth ι)) = es.map (truthIn ι)
  mem_old : ∀ a ∈ u.atoms.toList, a ∈ t.atoms.toList ∨ ∃ e ∈ es, e.Mentions a

/-- Clauses read the same over a later table. -/
theorem reads_of_extends (hut : u.Extends t) {clauses : List Clause}
    (hclauses : ∀ c ∈ clauses, ∀ l ∈ c.toList, t.Knows l) (ι : Interpretation) :
    form.reads (u.truth ι) clauses = form.reads (t.truth ι) clauses :=
  NormalForm.reads_congr fun c hc l hl => hut.truth_eq (hclauses c hc l hl) ι

theorem allExpanded_of_forall {es : List Expression} (ht : t.Valid)
    (hes : ∀ e ∈ es, ∀ t : Atoms, t.Valid →
      Expanded form t (expand form e t).2 e (expand form e t).1) :
    AllExpanded form t (expandAll form es t).2 es (expandAll form es t).1 := by
  induction es generalizing t with
  | nil =>
      rw [expandAll_nil]
      exact ⟨ht, .refl t, by simp, by simp, fun a ha => Or.inl ha⟩
  | cons e es ih =>
      have first := hes e List.mem_cons_self t ht
      have rest := ih first.valid fun e he => hes e (List.mem_cons_of_mem _ he)
      rw [expandAll_cons]
      refine ⟨rest.valid, first.extends_old.trans rest.extends_old, ?_, ?_, ?_⟩
      · intro clauses hclauses c hc l hl
        rcases List.mem_cons.mp hclauses with rfl | hclauses
        · exact rest.extends_old.knows (first.knows c hc l hl)
        · exact rest.knows clauses hclauses c hc l hl
      · intro ι
        rw [List.map_cons, List.map_cons, rest.reads_eq, reads_of_extends rest.extends_old
          first.knows, first.reads_eq]
      · intro a ha
        rcases rest.mem_old a ha with hold | ⟨f, hf, hmentions⟩
        · exact (first.mem_old a hold).imp_right fun hmentions =>
            ⟨e, List.mem_cons_self, hmentions⟩
        · exact Or.inr ⟨f, List.mem_cons_of_mem _ hf, hmentions⟩

namespace AllExpanded

variable {es : List Expression} {parts : List (List Clause)}

theorem mem_old_node (h : AllExpanded form t u es parts) (s : Symbol) :
    ∀ a ∈ u.atoms.toList, a ∈ t.atoms.toList ∨ (node s es).Mentions a := by
  intro a ha
  rcases h.mem_old a ha with hold | ⟨e, he, hmentions⟩
  · exact Or.inl hold
  · exact Or.inr (hmentions.node he)

theorem reads_flatten (h : AllExpanded form t u es parts) (ι : Interpretation) :
    form.reads (u.truth ι) parts.flatten = truthIn ι (node form.listSymbol es) := by
  have operands := h.reads_eq ι
  rw [NormalForm.reads_flatten]
  cases form with
  | cnf =>
      rw [NormalForm.listSymbol, truthIn_and]
      simpa [Function.comp_def] using congrArg (List.all · id) operands
  | dnf =>
      rw [NormalForm.listSymbol, truthIn_or]
      simpa [Function.comp_def] using congrArg (List.any · id) operands

theorem reads_products (h : AllExpanded form t u es parts) (ι : Interpretation) :
    form.reads (u.truth ι) (Clause.products parts) = truthIn ι (node form.clauseSymbol es) := by
  have operands := h.reads_eq ι
  rw [Clause.reads_products fun clauses hclauses c hc l hl =>
    h.valid.truth_neg (h.knows clauses hclauses c hc l hl) ι]
  cases form with
  | cnf =>
      rw [NormalForm.clauseSymbol, truthIn_or]
      simpa [Function.comp_def] using congrArg (List.any · id) operands
  | dnf =>
      rw [NormalForm.clauseSymbol, truthIn_and]
      simpa [Function.comp_def] using congrArg (List.all · id) operands

/-- The connective that joins clauses appends the clauses of its operands. -/
theorem expanded_flatten (h : AllExpanded form t u es parts) :
    Expanded form t u (node form.listSymbol es) parts.flatten where
  valid := h.valid
  extends_old := h.extends_old
  knows := by
    intro c hc l hl
    obtain ⟨clauses, hclauses, hc⟩ := List.mem_flatten.mp hc
    exact h.knows clauses hclauses c hc l hl
  reads_eq := h.reads_flatten
  mem_old := h.mem_old_node _

/-- The connective inside clauses multiplies the clauses of its operands. -/
theorem expanded_products (h : AllExpanded form t u es parts) :
    Expanded form t u (node form.clauseSymbol es) (Clause.products parts) where
  valid := h.valid
  extends_old := h.extends_old
  knows := Clause.forall_literals_products h.knows
  reads_eq := h.reads_products
  mem_old := h.mem_old_node _

end AllExpanded

/-- The clauses of an atom are the clause of its literal alone. -/
theorem expanded_atom {a : Expression} (ht : t.Valid) (ha : ProperAtom a) :
    Expanded form t (t.literalOf a).2 a [Literals.arranged [(t.literalOf a).1]] := by
  have added := Atoms.adds_literalOf ht ha
  have literal : ∀ l ∈ (Literals.arranged [(t.literalOf a).1] : Clause).toList,
      l = (t.literalOf a).1 := by
    intro l hl
    exact List.mem_singleton.mp (Literals.mem_toList_arranged.mp hl)
  exact {
    valid := added.valid
    extends_old := added.extends_old
    knows := by
      intro c hc l hl
      rw [List.mem_singleton.mp hc] at hl
      rw [literal l hl]
      exact added.knows
    reads_eq := by
      intro ι
      have htruth : (t.literalOf a).2.truth ι (t.literalOf a).1 = truthIn ι a := by
        rw [Atoms.truth, added.atomOf_eq]
      cases form <;> simp [NormalForm.reads, LiteralOrder.arrange, htruth]
    mem_old := by
      intro b hb
      rw [Mentions, ha.atoms_eq, List.mem_singleton, List.mem_singleton]
      rcases added.mem_old b hb with hold | rfl | rfl
      · exact Or.inl hold
      · exact Or.inr (Or.inl rfl)
      · exact Or.inr (Or.inr ha.opposite_opposite) }

/-- Expansion represents every formula in negation normal form by its clauses. -/
theorem expanded_of_nnfTree {e : Expression} (he : NnfTree e) (ht : t.Valid) :
    Expanded form t (expand form e t).2 e (expand form e t).1 := by
  induction he generalizing t with
  | verum =>
      rw [expand_verum]
      cases form <;> exact ⟨ht, .refl t, by simp [Literals.empty, Literals.toList],
        fun ι => rfl, fun a ha => Or.inl ha⟩
  | falsum =>
      rw [expand_falsum]
      cases form <;> exact ⟨ht, .refl t, by simp [Literals.empty, Literals.toList],
        fun ι => rfl, fun a ha => Or.inl ha⟩
  | atom ha =>
      rw [expand_atom ha]
      exact expanded_atom ht ha
  | and hes ih =>
      have operands := allExpanded_of_forall ht fun e he t ht => ih e he ht
      rw [expand_and]
      cases form with
      | cnf => exact operands.expanded_flatten
      | dnf => exact operands.expanded_products
  | or hes ih =>
      have operands := allExpanded_of_forall ht fun e he t ht => ih e he ht
      rw [expand_or]
      cases form with
      | cnf => exact operands.expanded_products
      | dnf => exact operands.expanded_flatten

/-- The formula of one clause. -/
def ofClause (form : NormalForm) (t : Atoms) (c : Clause) : Expression :=
  node form.clauseSymbol
    ((c.toList.mergeSort fun a b => decide (a.natAbs ≤ b.natAbs)).map t.atomOf)

theorem ofClauses_eq (form : NormalForm) (t : Atoms) (clauses : List Clause) :
    ofClauses form t clauses =
      if clauses.any Literals.isEmpty then node form.listSymbol [node form.clauseSymbol []]
      else node form.listSymbol (clauses.eraseDups.map (ofClause form t)) := by
  rw [← Distinct.toList_ofList]
  rfl

theorem truthIn_ofClause (ι : Interpretation) (c : Clause) :
    truthIn ι (ofClause form t c) =
      match form with
      | .cnf => c.toList.any (t.truth ι)
      | .dnf => c.toList.all (t.truth ι) := by
  cases form with
  | cnf =>
      rw [ofClause, NormalForm.clauseSymbol, truthIn_or, List.any_map, Bool.eq_iff_iff]
      simp [Atoms.truth]
  | dnf =>
      rw [ofClause, NormalForm.clauseSymbol, truthIn_and, List.all_map, Bool.eq_iff_iff]
      simp [Atoms.truth]

/-- The formula of a list of clauses means what the list is read as. -/
theorem truthIn_ofClauses (ι : Interpretation) (clauses : List Clause) :
    truthIn ι (ofClauses form t clauses) = form.reads (t.truth ι) clauses := by
  by_cases hempty : clauses.any Literals.isEmpty = true
  · obtain ⟨c, hc, hnil⟩ := List.any_eq_true.mp hempty
    rw [ofClauses_eq, if_pos hempty,
      NormalForm.reads_of_empty_mem hc (by simpa [Literals.isEmpty, Literals.toList] using hnil)]
    cases form <;> rfl
  · rw [ofClauses_eq, if_neg hempty, ← NormalForm.reads_eraseDups]
    cases form with
    | cnf =>
        rw [NormalForm.listSymbol, truthIn_and, List.all_map]
        exact all_congr_of_mem fun c _ => truthIn_ofClause ι c
    | dnf =>
        rw [NormalForm.listSymbol, truthIn_or, List.any_map]
        exact any_congr_of_mem fun c _ => truthIn_ofClause ι c

end Expression

end ClauseForm
