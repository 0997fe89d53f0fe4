import ClauseForm.Clauses
import ClauseForm.Proofs.ExpansionReports
import ClauseForm.Proofs.FirstOccurrences

/-!
What a limit on the literals does to an expansion.

Every clause of the result was reported when it was kept, so the literals of the result are among
those that were reported on the way.  `normalFormWithin_spec` says that the limit counts exactly the
reported literals: where it admits all of them the result is the normal form, and otherwise there is
none.
-/

namespace ClauseForm

namespace Clauses

theorem literalCount_append (cs ds : List Clause) :
    literalCount ⟨cs ++ ds⟩ = literalCount ⟨cs⟩ + literalCount ⟨ds⟩ := by
  rw [literalCount, literals, List.flatMap_append, List.length_append]
  rfl

theorem literalCount_cons (c : Clause) (cs : List Clause) :
    literalCount ⟨c :: cs⟩ = c.size + literalCount ⟨cs⟩ :=
  List.length_append

theorem literalCount_singleton (l : Int) :
    literalCount ⟨[Literals.arranged [l]]⟩ = 1 := by
  rw [literalCount, literals, List.flatMap_singleton, Literals.toList_arranged]
  exact (LiteralOrder.arrange_perm _ [l]).length_eq

theorem literalCount_le_of_sublist {cs ds : List Clause} (h : cs.Sublist ds) :
    literalCount ⟨cs⟩ ≤ literalCount ⟨ds⟩ := by
  induction h with
  | slnil => exact Nat.le_refl 0
  | cons c h ih =>
      rw [literalCount_cons]
      omega
  | cons_cons c h ih =>
      rw [literalCount_cons, literalCount_cons]
      omega

end Clauses

namespace Clause

theorem literalsReported_clauseReports (cs : List Clause) :
    literalsReported (clauseReports cs) = Clauses.literalCount ⟨cs⟩ := by
  induction cs with
  | nil => rfl
  | cons c cs ih => rw [Clauses.literalCount_cons, ← ih]; rfl

/-- The literals of a product of two lists are reported when its clauses are kept. -/
theorem literalsReported_productReports (lefts rights : List Clause) :
    literalsReported (productReports lefts rights) =
      Clauses.literalCount ⟨product lefts rights⟩ := by
  rw [productReports, literalsReported_cons, literalsReported_clauseReports]
  exact Nat.zero_add _

/-- The literals of a product are those of its only factor or were reported. -/
theorem literalCount_products_le (factors : List (List Clause)) :
    Clauses.literalCount ⟨products factors⟩ ≤
      Clauses.literalCount ⟨factors.flatten⟩ + literalsReported (productsReports factors) := by
  cases factors with
  | nil => exact Nat.zero_le _
  | cons factor factors =>
      have joined : Clauses.literalCount ⟨factors.foldl product factor⟩ ≤
          Clauses.literalCount ⟨factor⟩ +
            literalsReported (foldReports productReports product factors factor) := by
        induction factors generalizing factor with
        | nil => exact Nat.le_refl _
        | cons next factors ih =>
            have rest := ih (product factor next)
            rw [foldReports, literalsReported_append, literalsReported_productReports,
              List.foldl_cons]
            omega
      rw [List.flatten_cons, Clauses.literalCount_append, products, productsReports]
      omega

end Clause

namespace Expression

variable {form : NormalForm} {e : Expression} {t : Atoms}

/-- What a node adds to the literals of its operands is reported. -/
theorem literalCount_nodeClauses_le (e : Expression) (parts : List (List Clause)) (t : Atoms) :
    Clauses.literalCount
        ⟨(Id.run ((nodeClauses form (Observer.silent (m := Id)) e parts).run t)).1⟩ ≤
      Clauses.literalCount ⟨parts.flatten⟩ +
        literalsReported (nodeReports form e.symbol parts) := by
  have multiplied := Clause.literalCount_products_le parts
  rw [← productOf_silent] at multiplied
  obtain ⟨s, es⟩ := e
  cases s with
  | verum | falsum => cases form <;> exact Nat.zero_le _
  | literal | compare =>
      refine Nat.le_trans (Nat.le_of_eq (Clauses.literalCount_singleton _)) ?_
      exact Nat.le_add_left 1 _
  | and =>
      cases form with
      | cnf => exact Nat.le_refl _
      | dnf => exact Nat.le_trans multiplied (by simp [nodeReports, NormalForm.listSymbol])
  | or =>
      cases form with
      | cnf => exact Nat.le_trans multiplied (by simp [nodeReports, NormalForm.listSymbol])
      | dnf => exact Nat.le_refl _
  | _ => exact Nat.zero_le _

theorem literalCount_expandAll_le {es : List Expression}
    (hes : ∀ e ∈ es, ∀ t, Clauses.literalCount ⟨(expand form e t).1⟩ ≤
      literalsReported (expansionReports form e t)) (t : Atoms) :
    Clauses.literalCount ⟨(expandAll form es t).1.flatten⟩ ≤
      literalsReported (operandReports form es t) := by
  induction es generalizing t with
  | nil => exact Nat.le_refl 0
  | cons e es ih =>
      have first := hes e List.mem_cons_self t
      have rest := ih (fun f hf => hes f (List.mem_cons_of_mem _ hf)) (expand form e t).2
      rw [expandAll_cons, operandReports, literalsReported_append, List.flatten_cons,
        Clauses.literalCount_append]
      exact Nat.add_le_add first rest

/-- The literals of the clauses that an expansion ends with were reported on the way. -/
theorem literalCount_expand_le (form : NormalForm) (e : Expression) (t : Atoms) :
    Clauses.literalCount ⟨(expand form e t).1⟩ ≤
      literalsReported (expansionReports form e t) := by
  match e with
  | node s es =>
      have operands := literalCount_expandAll_le
        (fun e (_ : e ∈ es) => literalCount_expand_le form e) t
      rw [expand_node, expansionReports, literalsReported_append]
      exact Nat.le_trans (literalCount_nodeClauses_le ..) (Nat.add_le_add_right operands _)

/-- A normal form has no more atoms in its clauses than the clauses have literals. -/
theorem length_ofClauses_le (form : NormalForm) (t : Atoms) (clauses : List Clause) :
    ((ofClauses form t clauses).operands.flatMap operands).length ≤
      Clauses.literalCount ⟨clauses⟩ := by
  rw [ofClauses_eq]
  split
  · exact Nat.zero_le _
  · refine Nat.le_trans (Nat.le_of_eq ?_)
      (Clauses.literalCount_le_of_sublist (eraseDups_sublist clauses))
    rw [operands_node, List.flatMap_map, List.length_flatMap, Clauses.literalCount,
      Clauses.literals, List.length_flatMap]
    congr 1
    apply List.map_congr_left
    intro c _
    simp [ofClause]

end Expression

namespace Budget

/-- A limit on the literals alone, after a number of them that it did not exceed. -/
structure Counted (l : Budget) (limit count : Nat) : Prop where
  not_exceeded : l.exceeded = false
  no_distributions : l.maxDistributions = none
  limit_eq : l.maxLiterals = limit
  literals_eq : l.literals = min count largestCount
  literals_le : l.literals ≤ limit

variable {l : Budget} {limit count : Nat}

theorem counted_new (limit : Nat) : (new limit none).Counted limit 0 where
  not_exceeded := rfl
  no_distributions := rfl
  limit_eq := rfl
  literals_eq := rfl
  literals_le := Nat.zero_le _

/-- A report is answered well as long as all literals so far are within the limit. -/
theorem Counted.answer_of_le (hl : l.Counted limit count) {r : Report}
    (h : min (count + r.literals) largestCount ≤ limit) :
    ∃ later, supervisor.answer r l = (.ok (), later) ∧
      later.Counted limit (count + r.literals) := by
  obtain ⟨hexceeded, hdistributions, rfl, hliterals, hle⟩ := hl
  cases r with
  | checkpoint =>
      refine ⟨l, ?_, hexceeded, hdistributions, rfl, hliterals, hle⟩
      simp [Supervisor.answer, supervisor, hexceeded]
  | distribution =>
      refine ⟨{ l with exceeded := false, distributions := l.distributions + 1 }, ?_, rfl,
        hdistributions, rfl, hliterals, hle⟩
      simp [Supervisor.answer, supervisor, countDistribution, hdistributions]
  | clause n =>
      have hcount : min (l.literals + n) largestCount = min (count + n) largestCount := by omega
      refine ⟨{ l with exceeded := false, literals := min (count + n) largestCount }, ?_, rfl,
        hdistributions, rfl, rfl, h⟩
      have hwithin : ¬ l.maxLiterals < min (count + n) largestCount := Nat.not_lt.mpr h
      simp only [Supervisor.answer, supervisor, countClause, hcount, hwithin, decide_false,
        Bool.false_eq_true, if_false]

/-- The first report that exceeds the limit is answered with an error. -/
theorem Counted.answer_of_lt (hl : l.Counted limit count) {r : Report}
    (h : limit < min (count + r.literals) largestCount) :
    ∃ later, supervisor.answer r l = (.error (.tooManyLiterals limit), later) := by
  obtain ⟨-, -, rfl, hliterals, hle⟩ := hl
  cases r with
  | checkpoint | distribution =>
      rw [Report.literals] at h
      omega
  | clause n =>
      have hcount : min (l.literals + n) largestCount = min (count + n) largestCount := by omega
      rw [Report.literals] at h
      refine ⟨{ l with exceeded := true, literals := min (count + n) largestCount }, ?_⟩
      simp only [Supervisor.answer, supervisor, countClause, hcount, h, decide_true, if_true]

/-- A limit stops a script if and only if the script tells of more literals. -/
theorem Counted.hear_fst (hl : l.Counted limit count) (script : List Report) :
    (supervisor.hear script l).1 =
      if min (count + literalsReported script) largestCount ≤ limit then .ok ()
      else .error (.tooManyLiterals limit) := by
  induction script generalizing l count with
  | nil =>
      have hle := hl.literals_le
      rw [hl.literals_eq] at hle
      exact (if_pos hle).symm
  | cons r script ih =>
      rw [literalsReported_cons, ← Nat.add_assoc, Supervisor.hear]
      by_cases h : min (count + r.literals) largestCount ≤ limit
      · obtain ⟨later, hanswer, hlater⟩ := hl.answer_of_le h
        rw [hanswer]
        exact ih hlater
      · obtain ⟨later, hanswer⟩ := hl.answer_of_lt (Nat.not_le.mp h)
        rw [hanswer, if_neg (by omega)]

end Budget

namespace Expression

variable {form : NormalForm} {e : Expression}

/-- The number of literals that are made on the way to a normal form. -/
def literalsMade (form : NormalForm) (e : Expression) : Nat := literalsReported (e.reports form)

/-- The result under a limit depends only on how many literals are made on the way. -/
theorem normalFormWithin_some (limit : Nat) (form : NormalForm) (e : Expression) :
    e.normalFormWithin (some limit) form =
      if min (e.literalsMade form) largestCount ≤ limit then .ok (e.normalForm form)
      else .error (.tooManyLiterals limit) := by
  have scripted := scripted_normalForm Budget.supervisor.observer form e
  have heard := (Budget.counted_new limit).hear_fst (e.reports form)
  rw [Nat.zero_add] at heard
  rw [normalFormWithin, supervisedNormalForm, Supervisor.run_of_scripted scripted, heard,
    literalsMade]
  split <;> rfl

/-- The atoms in the clauses of a normal form that comes from an expansion are no more than the
literals made on the way. -/
theorem length_normalForm_le (h : (e.isTerm || e.isClauseList form) = false) :
    ((e.normalForm form).operands.flatMap operands).length ≤ e.literalsMade form := by
  rw [normalForm_eq, literalsMade, reports, h, if_neg Bool.false_ne_true,
    if_neg Bool.false_ne_true]
  exact Nat.le_trans (length_ofClauses_le ..) (literalCount_expand_le ..)

/-- The literals that are made on the way to a normal form, which a tally counts, decide which
limits the expansion is within.  If 64 bits can count them, the result under a limit is either the
normal form or the error that the limit is exceeded.  Nothing is made where nothing is expanded;
otherwise the atoms in the clauses of the normal form are no more than the literals made, so a result
under a limit is within the limit itself. -/
theorem normalFormWithin_spec (form : NormalForm) (e : Expression) :
    (∃ tally, e.normalFormUnder Tally.supervisor (.new none) form =
        .ok (.ok (e.normalForm form), tally) ∧ tally.literals = e.literalsMade form) ∧
      (e.literalsMade form ≤ largestCount → ∀ limit, e.normalFormWithin (some limit) form =
        if e.literalsMade form ≤ limit then .ok (e.normalForm form)
        else .error (.tooManyLiterals limit)) ∧
      ((e.isTerm || e.isClauseList form) = true → e.literalsMade form = 0) ∧
      ((e.isTerm || e.isClauseList form) = false →
        ((e.normalForm form).operands.flatMap operands).length ≤ e.literalsMade form ∧
          (e.literalsMade form ≤ largestCount → ∀ limit result,
            e.normalFormWithin (some limit) form = .ok result →
              (result.operands.flatMap operands).length ≤ limit)) := by
  have within : e.literalsMade form ≤ largestCount → ∀ limit, e.normalFormWithin (some limit) form =
      if e.literalsMade form ≤ limit then .ok (e.normalForm form)
      else .error (.tooManyLiterals limit) := by
    intro hmade limit
    have hcount : min (e.literalsMade form) largestCount = e.literalsMade form :=
      Nat.min_eq_left hmade
    rw [normalFormWithin_some, hcount]
  refine ⟨?_, within, ?_, ?_⟩
  · have hstart : Tally.supervisor.start (.new none) = .ok ⟨1, 0, 0, 0, 0, none⟩ := rfl
    have unstopped : Tally.supervisor.NeverStops ⟨1, 0, 0, 0, 0, none⟩ := Tally.neverStops rfl
    refine ⟨Tally.supervisor.after (e.reports form) ⟨1, 0, 0, 0, 0, none⟩, ?_, ?_⟩
    · rw [normalFormUnder_of_start form e hstart, unstopped.hear_eq]
      rfl
    · rw [Tally.after_supervisor]
      exact Nat.zero_add _
  · intro hsame
    rw [literalsMade, reports, hsame]
    rfl
  · intro hexpanded
    have hlength := length_normalForm_le hexpanded
    refine ⟨hlength, ?_⟩
    intro hmade limit result hresult
    rw [within hmade] at hresult
    split at hresult
    · rename_i hlimit
      obtain rfl := Except.ok.inj hresult
      exact Nat.le_trans hlength hlimit
    · contradiction

namespace ExpansionLimitsWitness

/-- A negated disjunction, which is expanded into two clauses of one literal. -/
def sample : Expression := node .not [node .or [literal "a" true, literal "b" false]]

theorem normalFormWithin_spec_sample :
    sample.literalsMade .cnf = 2 ∧
      sample.normalFormWithin (some 1) .cnf = .error (.tooManyLiterals 1) ∧
      sample.normalFormWithin (some 2) .cnf = .ok (sample.normalForm .cnf) := by
  have hmade : sample.literalsMade .cnf = 2 := by decide +kernel
  obtain ⟨-, hwithin, -, -⟩ := normalFormWithin_spec .cnf sample
  rw [hmade] at hwithin
  exact ⟨hmade, hwithin (by decide) 1, hwithin (by decide) 2⟩

end ExpansionLimitsWitness

end Expression

end ClauseForm
