import ClauseForm.Proofs.CleanClauses
import ClauseForm.Proofs.ModelCount
import ClauseForm.Proofs.SearchHistory

/-!
Expansion decides satisfiability and validity.

Clean clauses do not vanish from the meaning of a list: each of them can decide it alone.  So a
formula over names that is expanded has no clauses only if it is constant, and the dual of a list is
empty only if a search for a model of the list is in vain.
-/

namespace ClauseForm

namespace NormalForm

variable {form : NormalForm} {τ : Int → Bool} {clauses : List Clause} {c : Clause}

/-- The truth value of a list without clauses. -/
def neutral : NormalForm → Bool
  | cnf => true
  | dnf => false

theorem reads_nil (form : NormalForm) (τ : Int → Bool) : form.reads τ [] = form.neutral := by
  cases form <;> rfl

/-- A clause decides the truth value of a list if its literals have the value that decides it. -/
theorem reads_of_mem (hc : c ∈ clauses) (hτ : ∀ l ∈ c.toList, τ l = !form.neutral) :
    form.reads τ clauses = !form.neutral := by
  cases form with
  | cnf => exact List.all_eq_false.mpr ⟨c, hc, by simpa [neutral] using hτ⟩
  | dnf => exact List.any_eq_true.mpr ⟨c, hc, List.all_eq_true.mpr hτ⟩

end NormalForm

namespace Expression

variable {form : NormalForm} {e : Expression} {u : Atoms} {clauses : List Clause}

theorem operands_ofClauses_eq_nil_iff :
    (ofClauses form u clauses).operands = [] ↔ clauses = [] := by
  rw [ofClauses_eq]
  split
  · next hempty =>
      refine iff_of_false (by simp) ?_
      rintro rfl
      contradiction
  · rw [operands_node, List.map_eq_nil_iff]
    simp [List.eq_nil_iff_forall_not_mem, List.mem_eraseDups]

/-- Without comparisons the literals of an expansion stand for names. -/
theorem Expanded.exists_literal (he : FormulaTree e) (hnone : e.comparisons = [])
    (expanded : Expanded form .empty u (e.expansionBase form) clauses) {l : Int} (hl : u.Knows l) :
    ∃ name positive, u.atomOf l = literal name positive := by
  rw [comparisons_eq, List.filterMap_eq_nil_iff] at hnone
  have hproper := expanded.valid.properAtom_atomOf hl
  have hmentions := expanded.mentions_atomOf he hl
  generalize u.atomOf l = a at hproper hmentions
  cases hproper with
  | literal name positive => exact ⟨name, positive, rfl⟩
  | compare =>
      rcases hmentions with hmem | hmem
      · exact absurd (hnone _ hmem) (by simp [Symbol.comparison?])
      · exact absurd (hnone _ hmem) (by simp [opposite, Symbol.comparison?])

/-- A formula over names that is expanded has no clauses left exactly if it always has the truth
value of a list without clauses. -/
theorem operands_normalForm_eq_nil_iff (he : FormulaTree e) (hnone : e.comparisons = [])
    (hlist : e.isClauseList form = false) :
    (e.normalForm form).operands = [] ↔ ∀ ι, truthIn ι e = form.neutral := by
  have hterm : e.isTerm = false := by rw [isTerm, he.category_eq]; rfl
  have htree := nnfTree_expansionBase he hlist
  have expanded : Expanded form _ _ _ _ := expanded_of_nnfTree htree Atoms.valid_empty
  have hclean : ∀ c ∈ (expand form (e.expansionBase form) .empty).1, c.Clean :=
    clean_of_mem_expand htree .empty
  have hreads := fun ι => (expanded.reads_eq ι).trans (truthIn_expansionBase he)
  rw [normalForm_eq, hterm, hlist, Bool.or_false, if_neg Bool.false_ne_true,
    operands_ofClauses_eq_nil_iff]
  generalize (expand form (e.expansionBase form) .empty).1 = clauses at *
  constructor
  · rintro rfl ι
    rw [← hreads, NormalForm.reads_nil]
  · intro hconstant
    refine List.eq_nil_iff_forall_not_mem.mpr fun c hc => ?_
    obtain ⟨ι, hι⟩ := (hclean c hc).exists_interpretation expanded.valid (expanded.knows c hc)
      (fun l hl => expanded.exists_literal he hnone (expanded.knows c hc l hl)) (!form.neutral)
    have hdecided := NormalForm.reads_of_mem hc hι
    rw [hreads, hconstant] at hdecided
    cases form <;> contradiction

/-- An interpretation of the names of a formula comes with bindings for them. -/
theorem exists_bindings_of_interpretation (he : FormulaTree e) (hnone : e.comparisons = [])
    (ι : Interpretation) :
    ∃ v : Bindings, (∀ name ∈ e.truthNames, ∃ b, v.get? name = some (.truth b)) ∧
      e.holds v = .ok (truthIn ι e) := by
  let v : Bindings := .ofTruths e.truthNames fun i => ι.truth e.truthNames[i]
  have hget : ∀ name ∈ e.truthNames, v.get? name = some (.truth (ι.truth name)) := by
    intro name hname
    obtain ⟨i, hi, rfl⟩ := List.getElem_of_mem hname
    exact Bindings.get?_ofTruths e.nodup_truthNames _ ⟨i, hi⟩
  have hnamed : ∀ name ∈ e.truthNames, ∃ b, v.get? name = some (.truth b) :=
    fun name hname => ⟨_, hget name hname⟩
  refine ⟨v, hnamed, (holds_eq_ok_iff he).mpr ⟨faultOf?_of_truths he hnone hnamed, ?_⟩⟩
  refine truthIn_congr he fun x hx => ?_
  obtain ⟨name, kind⟩ := x
  obtain rfl : kind = .truth := kind_eq_truth he hnone hx
  change v.interpretation.truth name = ι.truth name
  simp [Bindings.interpretation, hget name (mem_truthNames.mpr hx), Value.truth?]

end Expression

namespace Clauses

variable {l : Clauses}

/-- The dual of a list is empty exactly if the list has no model. -/
theorem toDual_eq_nil_iff (hl : l.Indexed) :
    l.toDual.toList = [] ↔ ∀ β, l.satisfiedUnder β = false := by
  have hreads : ∀ β, NormalForm.dnf.reads (trueUnder β) l.toDual.toList = l.satisfiedUnder β :=
    reads_toDual .cnf l
  constructor
  · intro hempty β
    rw [← hreads, hempty]
    rfl
  · intro hnever
    have hnonzero := forall_literals_toDual fun c hc x hx => Int.natAbs_pos.mp (hl c hc x hx)
    refine List.eq_nil_iff_forall_not_mem.mpr fun c hc => ?_
    obtain ⟨β, hβ⟩ := (clean_of_mem_toDual c hc).exists_trueUnder (hnonzero c hc)
    have hdecided : NormalForm.dnf.reads (trueUnder β) l.toDual.toList = !NormalForm.dnf.neutral :=
      NormalForm.reads_of_mem hc hβ
    rw [hreads, hnever] at hdecided
    contradiction

/-- Only the indices that occur matter to whether there is a model. -/
theorem models_eq_empty_iff (hl : l.Indexed) {n : Nat} (hn : l.maxIndex ≤ n) :
    l.models n = ∅ ↔ ∀ β, l.satisfiedUnder β = false := by
  rw [models, Finset.filter_eq_empty_iff]
  constructor
  · intro hnone β
    have hsame : l.satisfiedUnder (truthAt fun i : Fin n => β (i + 1)) = l.satisfiedUnder β :=
      satisfiedUnder_congr hl fun i hi => truthAt_succ _ (Nat.lt_of_lt_of_le hi hn)
    rw [← hsame]
    simpa using hnone (Finset.mem_univ _)
  · intro hnever β _
    simp [hnever]

/-- The dual of a list is empty exactly if a search for a model of the list, which no poll stops, is
in vain. -/
theorem search_eq_unsatisfiable_iff (hl : l.Indexed) {σ : Type} {monitor : Monitor σ}
    {state started : σ} (hstart : monitor.start state = .ok started)
    (hquiet : monitor.Quiet started) :
    ∃ verdict found final,
      (ModelSearch.empty.add l).search .empty monitor state = .ok (verdict, found, final) ∧
        (verdict = .unsatisfiable ↔ l.toDual.toList = []) := by
  have hs := ModelSearch.valid_empty.add hl
  have hrange : (ModelSearch.empty.add l).range .empty = l.maxIndex := Nat.zero_max _
  obtain ⟨verdict, solution, polls, hsearch, hconcludes⟩ :=
    hs.search_concludes Literals.indexed_empty hstart
  refine ⟨verdict, _, _, hsearch, ?_⟩
  obtain ⟨hfound, hnothing, hstopped⟩ := hconcludes.verdict_spec
  rw [toDual_eq_nil_iff hl, ← models_eq_empty_iff hl (Nat.le_of_eq hrange.symm),
    models_eq_solutions]
  refine ⟨hnothing, fun hempty => ?_⟩
  cases verdict with
  | unsatisfiable => rfl
  | satisfiable => exact absurd hempty (hfound rfl).ne_empty
  | undecided =>
      obtain ⟨j, -, hyes⟩ := hstopped.mp rfl
      rw [Monitor.answer, hquiet j] at hyes
      contradiction

end Clauses

namespace Expression

/-- Expansion decides satisfiability and validity: a formula over names that is no list of clauses
yet has no clauses in disjunctive normal form exactly if it never holds, and none in conjunctive
normal form exactly if it always holds.  The dual of a list of clauses is empty exactly if a search
finds no model of the list. -/
theorem expansion_decides :
    (∀ e : Expression, e.WellFormed → e.isFormula = true → e.comparisons = [] →
      (e.isClauseList .dnf = false →
        ((e.normalForm .dnf).operands = [] ↔ ¬ ∃ v, e.holds v = .ok true)) ∧
      (e.isClauseList .cnf = false →
        ((e.normalForm .cnf).operands = [] ↔
          ∀ v : Bindings, (∀ name ∈ e.truthNames, ∃ b, v.get? name = some (.truth b)) →
            e.holds v = .ok true))) ∧
    (∀ l : Clauses, l.Indexed → ∀ {σ : Type} (monitor : Monitor σ) (state started : σ),
      monitor.start state = .ok started → monitor.Quiet started →
        ∃ verdict found final,
          (ModelSearch.empty.add l).search .empty monitor state = .ok (verdict, found, final) ∧
            (verdict = .unsatisfiable ↔ l.toDual.toList = [])) := by
  refine ⟨fun e he hformula hnone => ?_, fun l hl σ monitor state started hstart hquiet =>
    Clauses.search_eq_unsatisfiable_iff hl hstart hquiet⟩
  have htree := formulaTree_iff.mpr ⟨he, hformula⟩
  refine ⟨fun hlist => ?_, fun hlist => ?_⟩
  · rw [operands_normalForm_eq_nil_iff htree hnone hlist]
    constructor
    · rintro hfalse ⟨v, hv⟩
      have htrue := ((holds_eq_ok_iff htree).mp hv).2
      rw [hfalse] at htrue
      contradiction
    · intro hnever ι
      obtain ⟨v, -, hv⟩ := exists_bindings_of_interpretation htree hnone ι
      cases htruth : truthIn ι e with
      | false => rfl
      | true => exact absurd ⟨v, htruth ▸ hv⟩ hnever
  · rw [operands_normalForm_eq_nil_iff htree hnone hlist]
    constructor
    · intro htrue v hv
      exact (holds_eq_ok_iff htree).mpr ⟨faultOf?_of_truths htree hnone hv, htrue _⟩
    · intro halways ι
      obtain ⟨v, hnamed, hv⟩ := exists_bindings_of_interpretation htree hnone ι
      rw [halways v hnamed] at hv
      exact (Except.ok.inj hv).symm

namespace DecisionWitness

/-- A formula that never holds: `a & ~a`. -/
def conflict : Expression := node .and [literal "a" true, literal "a" false]

/-- A formula that always holds: `a | ~a`. -/
def choice : Expression := node .or [literal "a" true, literal "a" false]

/-- Clauses without a model. -/
def opposed : Clauses := ⟨[⟨#[1]⟩, ⟨#[-1]⟩]⟩

theorem conflict_never : ¬ ∃ v, conflict.holds v = .ok true := by
  rintro ⟨v, hv⟩
  have htrue := ((holds_eq_ok_iff (formulaTree_iff.mpr ⟨by decide +kernel, rfl⟩)).mp hv).2
  simp [conflict, literal, truthIn] at htrue

theorem choice_always (v : Bindings)
    (hv : ∀ name ∈ choice.truthNames, ∃ b, v.get? name = some (.truth b)) :
    choice.holds v = .ok true := by
  have htree : FormulaTree choice := formulaTree_iff.mpr ⟨by decide +kernel, rfl⟩
  refine (holds_eq_ok_iff htree).mpr ⟨faultOf?_of_truths htree (by decide +kernel) hv, ?_⟩
  simp [choice, literal, truthIn]

theorem expansion_decides_sample :
    (conflict.normalForm .dnf).operands = [] ∧ (choice.normalForm .cnf).operands = [] ∧
      opposed.toDual.toList = [] := by
  obtain ⟨hexpressions, hlists⟩ := expansion_decides
  obtain ⟨hdnf, -⟩ := hexpressions conflict (by decide +kernel) rfl (by decide +kernel)
  obtain ⟨-, hcnf⟩ := hexpressions choice (by decide +kernel) rfl (by decide +kernel)
  have hindexed : opposed.Indexed := by simp [opposed, Clauses.Indexed, Literals.toList]
  obtain ⟨verdict, found, final, hsearch, hdual⟩ :=
    hlists opposed hindexed .silent () () rfl fun _ => rfl
  have hverdict : ((ModelSearch.empty.add opposed).search .empty .silent ()).map Prod.fst =
      .ok .unsatisfiable := by
    decide +kernel
  rw [hsearch] at hverdict
  exact ⟨(hdnf (by decide +kernel)).mpr conflict_never,
    (hcnf (by decide +kernel)).mpr choice_always, hdual.mp (Except.ok.inj hverdict)⟩

end DecisionWitness

end Expression

end ClauseForm
