import ClauseForm.Clauses.Extraction
import ClauseForm.Proofs.ClauseTruth
import ClauseForm.Proofs.Faults

/-!
What is read off a formula as a list of clauses.

`toClauses_eq` says what comes out: the faults of all items of all clauses in order, or else the
clauses that no constant makes superfluous.  `reads_toClauses` says that these clauses have the
truth value of the formula as soon as every literal has that of its item.
-/

namespace ClauseForm

namespace Expression

variable {form : NormalForm} {m : Numbering} {e : Expression} {τ : Int → Bool}
  {ι : Interpretation}

/-- The items of all clauses of a formula, from left to right. -/
def items (form : NormalForm) (e : Expression) : List Expression :=
  (e.clauseParts form).flatMap (itemParts form)

/-- What keeps an item out of a clause, if anything does. -/
def itemFault? (m : Numbering) (item : Expression) : Option Fault :=
  Faults.ofResult? (item.itemLiteral m)

/-- The literal of an item, if it has one. -/
def literal? (m : Numbering) (item : Expression) : Option Int :=
  (item.itemLiteral m).toOption.join

/-- The clause of a formula none of whose items has a fault. -/
def clauseOf? (form : NormalForm) (m : Numbering) (clause : Expression) : Option Clause :=
  if (clause.itemParts form).any fun item => item.symbol == form.vacuous then none
  else some (.arranged ((clause.itemParts form).filterMap (literal? m)))

theorem toClause_eq (clause : Expression) :
    clause.toClause form m =
      Faults.barring ((clause.itemParts form).filterMap (itemFault? m))
        (clause.clauseOf? form m) := by
  unfold toClause
  simp only [Faults.collect_map, Faults.barring_bind, List.filterMap_filterMap]
  rfl

/-- A formula has the clauses without vacuous constants, unless some items have faults. -/
theorem toClauses_eq (form : NormalForm) (m : Numbering) (e : Expression) :
    e.toClauses form m =
      Faults.barring ((e.items form).filterMap (itemFault? m))
        ⟨(e.clauseParts form).filterMap (clauseOf? form m)⟩ := by
  unfold toClauses
  rw [funext toClause_eq, Faults.collectAll_map_barring,
    Faults.barring_bind, items, List.filterMap_flatMap, List.filterMap_map]
  rfl

theorem literalOf_of_literal? {l : Int} (h : e.literal? m = some l) :
    ∃ name positive, e.symbol = .literal name positive ∧ m.literalOf name positive = .ok l := by
  unfold literal? itemLiteral at h
  cases hsymbol : e.symbol with
  | literal name positive =>
      rw [hsymbol] at h
      refine ⟨name, positive, rfl, ?_⟩
      cases hl : m.literalOf name positive with
      | ok k => simpa [hl, Except.map, Except.toOption] using h
      | error f => simp [hl, Except.map, Except.toOption] at h
  | _ =>
      rw [hsymbol] at h
      cases h

/-- The literals read off a formula are those of numbered names. -/
theorem literalOf_of_mem_toClauses {clauses : Clauses} (hclauses : e.toClauses form m = .ok clauses)
    {c : Clause} (hc : c ∈ clauses.toList) {l : Int} (hl : l ∈ c.toList) :
    ∃ name positive, m.literalOf name positive = .ok l := by
  rw [toClauses_eq, Faults.barring_eq_ok_iff] at hclauses
  obtain ⟨-, rfl⟩ := hclauses
  obtain ⟨clause, -, hclause⟩ := List.mem_filterMap.mp hc
  unfold clauseOf? at hclause
  split at hclause
  · contradiction
  · obtain rfl := Option.some.inj hclause
    obtain ⟨item, -, hitem⟩ := List.mem_filterMap.mp (Literals.mem_toList_arranged.mp hl)
    obtain ⟨name, positive, -, h⟩ := literalOf_of_literal? hitem
    exact ⟨name, positive, h⟩

theorem truthIn_of_verum (h : e.symbol = .verum) : truthIn ι e = true := by
  match e, h with
  | node .verum _, rfl => rfl

theorem truthIn_of_falsum (h : e.symbol = .falsum) : truthIn ι e = false := by
  match e, h with
  | node .falsum _, rfl => rfl

/-- An item without a fault has a literal or is a constant. -/
theorem literal?_of_itemFault? (h : e.itemFault? m = none) :
    (∃ l, e.literal? m = some l) ∨ e.symbol = .verum ∨ e.symbol = .falsum := by
  unfold itemFault? at h
  unfold literal?
  unfold itemLiteral at h ⊢
  cases hsymbol : e.symbol with
  | verum => exact Or.inr (Or.inl rfl)
  | falsum => exact Or.inr (Or.inr rfl)
  | literal name positive =>
      rw [hsymbol] at h
      cases hl : m.literalOf name positive with
      | ok l => exact Or.inl ⟨l, by simp [hl, Except.map, Except.toOption]⟩
      | error f => simp [hl, Except.map, Faults.ofResult?] at h
  | _ =>
      rw [hsymbol] at h
      cases h

/-- A formula is the conjunction or the disjunction of its clauses. -/
theorem truthIn_eq_clauseParts (form : NormalForm) (e : Expression) (ι : Interpretation) :
    truthIn ι e =
      match form with
      | .cnf => (e.clauseParts .cnf).all (truthIn ι)
      | .dnf => (e.clauseParts .dnf).any (truthIn ι) := by
  obtain ⟨s, es⟩ := e
  cases form with
  | cnf =>
      by_cases hs : s = .and <;> simp [clauseParts, NormalForm.listSymbol, hs]
  | dnf =>
      by_cases hs : s = .or <;> simp [clauseParts, NormalForm.listSymbol, hs]

/-- A clause is the disjunction or the conjunction of its items. -/
theorem truthIn_eq_itemParts (form : NormalForm) (clause : Expression) (ι : Interpretation) :
    truthIn ι clause =
      match form with
      | .cnf => (clause.itemParts .cnf).any (truthIn ι)
      | .dnf => (clause.itemParts .dnf).all (truthIn ι) := by
  obtain ⟨s, es⟩ := clause
  cases form with
  | cnf =>
      by_cases hs : s = .or <;> simp [itemParts, NormalForm.clauseSymbol, hs]
  | dnf =>
      by_cases hs : s = .and <;> simp [itemParts, NormalForm.clauseSymbol, hs]

/-- Items are true exactly if their literals are, apart from constants. -/
def LiteralsAgree (m : Numbering) (τ : Int → Bool) (ι : Interpretation)
    (items : List Expression) : Prop :=
  ∀ item ∈ items, item.itemFault? m = none ∧ ∀ l, item.literal? m = some l → τ l = truthIn ι item

/-- The clause read off a formula has its truth value; where a constant makes the clause
superfluous, no clause at all has. -/
theorem reads_clauseOf? {clause : Expression}
    (hitems : LiteralsAgree m τ ι (clause.itemParts form)) :
    form.reads τ (clause.clauseOf? form m).toList = truthIn ι clause := by
  rw [truthIn_eq_itemParts form, Bool.eq_iff_iff]
  unfold clauseOf?
  cases form with
  | cnf =>
      by_cases hvacuous : (clause.itemParts .cnf).any fun item =>
          item.symbol == NormalForm.cnf.vacuous
      · rw [if_pos hvacuous]
        obtain ⟨item, hitem, hsymbol⟩ := List.any_eq_true.mp hvacuous
        have htrue := truthIn_of_verum (ι := ι) (beq_iff_eq.mp hsymbol)
        exact iff_of_true rfl (List.any_eq_true.mpr ⟨item, hitem, htrue⟩)
      · rw [if_neg hvacuous]
        have hkept : ∀ item ∈ clause.itemParts .cnf, item.symbol ≠ .verum := by
          simpa [NormalForm.vacuous] using hvacuous
        simp only [NormalForm.reads, Option.toList_some, List.all_cons, List.all_nil,
          Bool.and_true, List.any_eq_true, Literals.mem_toList_arranged, List.mem_filterMap]
        constructor
        · rintro ⟨l, ⟨item, hitem, hl⟩, htrue⟩
          exact ⟨item, hitem, ((hitems item hitem).2 l hl).symm.trans htrue⟩
        · rintro ⟨item, hitem, htrue⟩
          rcases literal?_of_itemFault? (hitems item hitem).1 with ⟨l, hl⟩ | hverum | hfalsum
          · exact ⟨l, ⟨item, hitem, hl⟩, ((hitems item hitem).2 l hl).trans htrue⟩
          · exact absurd hverum (hkept item hitem)
          · rw [truthIn_of_falsum hfalsum] at htrue
            contradiction
  | dnf =>
      by_cases hvacuous : (clause.itemParts .dnf).any fun item =>
          item.symbol == NormalForm.dnf.vacuous
      · rw [if_pos hvacuous]
        obtain ⟨item, hitem, hsymbol⟩ := List.any_eq_true.mp hvacuous
        have hfalse := truthIn_of_falsum (ι := ι) (beq_iff_eq.mp hsymbol)
        apply iff_of_false (by simp [NormalForm.reads])
        intro hall
        rw [List.all_eq_true.mp hall item hitem] at hfalse
        contradiction
      · rw [if_neg hvacuous]
        have hkept : ∀ item ∈ clause.itemParts .dnf, item.symbol ≠ .falsum := by
          simpa [NormalForm.vacuous] using hvacuous
        simp only [NormalForm.reads, Option.toList_some, List.any_cons, List.any_nil,
          Bool.or_false, List.all_eq_true, Literals.mem_toList_arranged, List.mem_filterMap]
        constructor
        · intro hall item hitem
          rcases literal?_of_itemFault? (hitems item hitem).1 with ⟨l, hl⟩ | hverum | hfalsum
          · exact ((hitems item hitem).2 l hl).symm.trans (hall l ⟨item, hitem, hl⟩)
          · exact truthIn_of_verum hverum
          · exact absurd hfalsum (hkept item hitem)
        · rintro hall l ⟨item, hitem, hl⟩
          exact ((hitems item hitem).2 l hl).trans (hall item hitem)

/-- The clauses read off a formula have its truth value if their literals have those of the
items. -/
theorem reads_toClauses (hitems : LiteralsAgree m τ ι (e.items form)) {clauses : Clauses}
    (hclauses : e.toClauses form m = .ok clauses) :
    form.reads τ clauses.toList = truthIn ι e := by
  rw [toClauses_eq, Faults.barring_eq_ok_iff] at hclauses
  obtain ⟨-, rfl⟩ := hclauses
  have hclause : ∀ clause ∈ e.clauseParts form,
      form.reads τ (clause.clauseOf? form m).toList = truthIn ι clause := fun clause hclause =>
    reads_clauseOf? fun item hitem => hitems item (List.mem_flatMap.mpr ⟨clause, hclause, hitem⟩)
  have hflatten : (e.clauseParts form).filterMap (clauseOf? form m) =
      ((e.clauseParts form).map fun clause => (clause.clauseOf? form m).toList).flatten := by
    rw [List.filterMap_eq_flatMap_toList, List.flatMap_def]
  rw [hflatten, NormalForm.reads_flatten, truthIn_eq_clauseParts form]
  cases form with
  | cnf =>
      rw [List.all_map]
      exact all_congr_of_mem hclause
  | dnf =>
      rw [List.any_map]
      exact any_congr_of_mem hclause

end Expression

end ClauseForm
