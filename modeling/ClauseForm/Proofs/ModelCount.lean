import ClauseForm.Proofs.Assumptions
import ClauseForm.Proofs.Bindings
import ClauseForm.Proofs.Encoding
import Mathlib.Logic.Equiv.Fin.Basic

/-!
Models of a formula and models of its clauses.

A search over the clauses of a formula goes through the indices up to the largest one in the
clauses, while the formula may have more names.  `modelSearch_spec` says that the search decides the
formula all the same, and that every model of the clauses stands for a power of two of models of the
formula.
-/

namespace ClauseForm

namespace Clauses

variable {l : Clauses} {β γ : Nat → Bool}

/-- The models of some clauses over a number of indices. -/
def models (l : Clauses) (n : Nat) : Finset (Fin n → Bool) :=
  Finset.univ.filter fun β => l.satisfiedUnder (truthAt β) = true

/-- Each index that does not occur doubles the number of models. -/
theorem card_models_add (hl : l.Indexed) (d : Nat) :
    (l.models (l.maxIndex + d)).card = (l.models l.maxIndex).card * 2 ^ d := by
  have hsplit : l.models (l.maxIndex + d) =
      (l.models l.maxIndex ×ˢ (Finset.univ : Finset (Fin d → Bool))).map
        (Fin.appendEquiv l.maxIndex d).toEmbedding := by
    ext β
    obtain ⟨⟨ρ, δ⟩, rfl⟩ := (Fin.appendEquiv l.maxIndex d).surjective β
    have hsame : l.satisfiedUnder (truthAt (Fin.append ρ δ)) = l.satisfiedUnder (truthAt ρ) := by
      apply satisfiedUnder_congr hl
      intro i hi
      rw [truthAt_succ _ (Nat.lt_add_right d hi), truthAt_succ _ hi]
      exact Fin.append_left ρ δ ⟨i, hi⟩
    have happend : Fin.appendEquiv l.maxIndex d (ρ, δ) = Fin.append ρ δ := rfl
    rw [Finset.mem_map_equiv, Equiv.symm_apply_apply, happend]
    simp [models, hsame]
  rw [hsplit, Finset.card_map, Finset.card_product, Finset.card_univ, Fintype.card_fun,
    Fintype.card_bool, Fintype.card_fin]

theorem card_models_of_le (hl : l.Indexed) {n : Nat} (hn : l.maxIndex ≤ n) :
    (l.models l.maxIndex).card * 2 ^ (n - l.maxIndex) = (l.models n).card := by
  rw [← card_models_add hl, Nat.add_sub_cancel' hn]

theorem models_eq_solutions (l : Clauses) (n : Nat) :
    l.models n = ModelSearch.solutions l.toList .empty n := by
  refine Finset.ext fun β => ?_
  rw [models, ModelSearch.solutions, Finset.mem_filter, Finset.mem_filter]
  simp [satisfiedUnder, Literals.empty, Literals.toList]

/-- Going through the numbers with as many binary digits as there are indices counts the models. -/
theorem countP_ofNumber (hl : l.Indexed) :
    ((List.range (2 ^ l.maxIndex)).map (Valuation.ofNumber l.maxIndex)).countP
      (fun v => l.satisfiedUnder v.value) = (l.models l.maxIndex).card := by
  have hmax : (ModelSearch.empty.add l).maxIndex = l.maxIndex := Nat.zero_max _
  have hrange : (ModelSearch.empty.add l).range .empty = l.maxIndex := Nat.zero_max _
  have hsatisfied : (ModelSearch.empty.add l).satisfiedBy = fun v => l.satisfiedUnder v.value :=
    funext (ModelSearch.satisfiedBy_eq _)
  have hcount := (ModelSearch.valid_empty.add hl).countP_visited Literals.indexed_empty
  rw [ModelSearch.visited_empty, hmax, hrange, hsatisfied] at hcount
  rw [models_eq_solutions]
  exact hcount

end Clauses

namespace Valuation

variable {v : Valuation} {names : List String}

/-- The name at the place that the index of a literal counts, with the truth value that makes the
literal true. -/
def bindingOf (names : List String) (l : Int) : String × Value :=
  (names.getD (l.natAbs - 1) "", .truth (decide (0 < l)))

theorem bindingOf_literalAt (i : Nat) :
    bindingOf names (v.literalAt i) = (names.getD i "", .truth (v.value (i + 1))) := by
  rw [bindingOf, natAbs_literalAt, decide_pos_literalAt, Nat.add_sub_cancel]

theorem binding_literalAt (hnames : names.Nodup) {i : Nat} (hi : i < names.length) :
    Literals.binding (.ofNames names) (v.literalAt i) = .ok (bindingOf names (v.literalAt i)) := by
  have hname : (Numbering.ofNames names).nameOfLiteral? (v.literalAt i) = some names[i] :=
    (Numbering.nameOfLiteral?_ofNames_eq_some_iff hnames).mpr
      ⟨i, natAbs_literalAt v i, List.getElem?_eq_getElem hi⟩
  rw [Literals.binding, hname, bindingOf_literalAt, decide_pos_literalAt,
    List.getD_eq_getElem _ _ hi]

/-- The true literals of a valuation bind the names, in some order, to the values of the indices. -/
theorem map_bindingOf_perm (v : Valuation) (names : List String) :
    (v.toSolution.toList.map (bindingOf names)).Perm
      ((List.range (v.size - 1)).map fun i => (names.getD i "", .truth (v.value (i + 1)))) := by
  refine (v.toList_toSolution_perm.map _).trans (.of_eq ?_)
  rw [List.map_map]
  exact List.map_congr_left fun i _ => bindingOf_literalAt i

theorem nodup_map_bindingOf (hnames : names.Nodup) (hsize : v.size ≤ names.length + 1) :
    ((v.toSolution.toList.map (bindingOf names)).map Prod.fst).Nodup := by
  rw [((v.map_bindingOf_perm names).map _).nodup_iff, List.map_map]
  refine (List.nodup_range).map_on ?_
  intro i hi j hj hequal
  have hi := List.mem_range.mp hi
  have hj := List.mem_range.mp hj
  have hi' : i < names.length := by omega
  have hj' : j < names.length := by omega
  simp only [Function.comp, List.getD_eq_getElem _ _ hi', List.getD_eq_getElem _ _ hj'] at hequal
  exact (hnames.getElem_inj_iff).mp hequal

theorem collect_bindings (hnames : names.Nodup) (hsize : v.size ≤ names.length + 1) :
    Faults.collect (v.toSolution.toList.map (Literals.binding (.ofNames names))) =
      .ok (v.toSolution.toList.map (bindingOf names)) := by
  rw [Faults.collect_eq_ok_iff, List.map_map]
  apply List.map_congr_left
  intro l hl
  obtain ⟨i, hi, rfl⟩ := List.mem_map.mp (v.toList_toSolution_perm.mem_iff.mp hl)
  have := List.mem_range.mp hi
  exact binding_literalAt hnames (by omega)

/-- The solution of a valuation binds the names of its indices to their values. -/
theorem toBindings_toSolution (hnames : names.Nodup) (hsize : v.size ≤ names.length + 1) :
    ∃ w : Bindings, v.toSolution.toBindings (.ofNames names) = .ok w ∧ w.Valid ∧
      ∀ entry, entry ∈ w.toList ↔
        ∃ i, i + 1 < v.size ∧ entry = (names.getD i "", .truth (v.value (i + 1))) := by
  have hdistinct := nodup_map_bindingOf hnames hsize
  refine ⟨⟨v.toSolution.toList.map (bindingOf names)⟩, ?_, hdistinct, ?_⟩
  · rw [Literals.toBindings, collect_bindings hnames hsize]
    exact Bindings.ofPairs_of_nodup hdistinct
  · intro entry
    rw [(v.map_bindingOf_perm names).mem_iff, List.mem_map]
    apply exists_congr
    intro i
    rw [List.mem_range, Nat.lt_sub_iff_add_lt, eq_comm]

/-- Completed by false, the bindings of a solution give each name the value of its index. -/
theorem get?_complete_toSolution (hnames : names.Nodup) (hsize : v.size ≤ names.length + 1) :
    ∃ w : Bindings, v.toSolution.toBindings (.ofNames names) = .ok w ∧
      ∀ i (hi : i < names.length),
        (w.complete names (.truth false)).get? names[i] = some (.truth (v.value (i + 1))) := by
  obtain ⟨w, hw, hvalid, hentries⟩ := toBindings_toSolution hnames hsize
  refine ⟨w, hw, fun i hi => ?_⟩
  rw [Bindings.get?_complete]
  by_cases hinside : i + 1 < v.size
  · have hget : w.get? names[i] = some (.truth (v.value (i + 1))) := by
      refine hvalid.get?_eq_some_iff.mpr ((hentries _).mpr ⟨i, hinside, ?_⟩)
      rw [List.getD_eq_getElem _ _ hi]
    simp [hget]
  · have hnone : w.get? names[i] = none := by
      rw [Option.eq_none_iff_forall_ne_some]
      intro value hvalue
      obtain ⟨j, hj, hequal⟩ := (hentries _).mp (hvalid.get?_eq_some_iff.mp hvalue)
      have hj' : j < names.length := by omega
      rw [List.getD_eq_getElem _ _ hj', Prod.mk.injEq] at hequal
      have := hnames.getElem_inj_iff.mp hequal.1
      omega
    simp [hnone, value_of_size_le (Nat.le_of_not_lt hinside)]

end Valuation

namespace Expression

variable {e : Expression} {v : Bindings}

/-- Without comparisons all variables of a formula are names of truth values. -/
theorem kind_eq_truth (he : FormulaTree e) (hnone : e.comparisons = []) {x : Variable}
    (hx : x ∈ e.occurrences) : x.kind = .truth := by
  obtain ⟨a, ha, hx⟩ := (mem_occurrences_iff he).mp hx
  rw [comparisons_eq, List.filterMap_eq_nil_iff] at hnone
  cases properAtom_of_mem_atoms he ha with
  | literal name positive =>
      have : x = ⟨name, .truth⟩ := by
        simpa [occurrences_node, Symbol.occurrence?] using hx
      rw [this]
  | compare => exact absurd (hnone _ ha) (by simp [Symbol.comparison?])

theorem faultOf?_of_truths (he : FormulaTree e) (hnone : e.comparisons = [])
    (hv : ∀ name ∈ e.truthNames, ∃ b, v.get? name = some (.truth b)) :
    ∀ x ∈ e.vars, v.faultOf? x = none := by
  intro x hx
  obtain ⟨name, kind⟩ := x
  obtain rfl : kind = .truth := kind_eq_truth he hnone (mem_vars.mp hx)
  obtain ⟨b, hb⟩ := hv name (mem_truthNames.mpr (mem_vars.mp hx))
  simp [Bindings.faultOf?, hb, Value.kind]

end Expression

namespace Encoding

open Expression

variable {e : Expression} {encoding : Encoding} {form : NormalForm} {v : Bindings}
  {β : Nat → Bool}

/-- A literal of an encoding stands for a name at the place that its index counts. -/
theorem nameOfLiteral?_of_within (h : within none form e = .ok encoding) {c : Clause}
    (hc : c ∈ encoding.clauses.toList) {l : Int} (hl : l ∈ c.toList) :
    ∃ i, ∃ hi : i < e.truthNames.length,
      l.natAbs = i + 1 ∧ encoding.numbering.nameOfLiteral? l = some e.truthNames[i] := by
  obtain ⟨hclauses, hnumbering⟩ := within_none_eq_ok_iff.mp h
  obtain ⟨name, positive, hliteral⟩ := literalOf_of_mem_toClauses hclauses hc hl
  have hname := ((Numbering.valid_ofNames _).nameOfLiteral?_of_literalOf hliteral).1
  obtain ⟨i, hindex, hget⟩ :=
    (Numbering.nameOfLiteral?_ofNames_eq_some_iff e.nodup_truthNames).mp hname
  obtain ⟨hi, hequal⟩ := List.getElem?_eq_some_iff.mp hget
  exact ⟨i, hi, hindex, by rw [hnumbering, hequal]; exact hname⟩

theorem indexed_of_within (h : within none form e = .ok encoding) : encoding.clauses.Indexed := by
  intro c hc l hl
  obtain ⟨i, -, hindex, -⟩ := nameOfLiteral?_of_within h hc hl
  omega

theorem maxIndex_le_of_within (h : within none form e = .ok encoding) :
    encoding.clauses.maxIndex ≤ e.truthNames.length := by
  apply Clauses.maxIndex_le_iff.mpr
  intro c hc l hl
  obtain ⟨i, hi, hindex, -⟩ := nameOfLiteral?_of_within h hc hl
  omega

/-- A formula without comparisons holds exactly if its clauses are true under the same truth
values. -/
theorem holds_eq_satisfiedUnder (he : FormulaTree e) (hnone : e.comparisons = [])
    (h : within none .cnf e = .ok encoding)
    (hv : ∀ i (hi : i < e.truthNames.length),
      v.get? e.truthNames[i] = some (.truth (β (i + 1)))) :
    e.holds v = .ok (encoding.clauses.satisfiedUnder β) := by
  have hassigned := faultOf?_of_truths he hnone (v := v) fun name hname => by
    obtain ⟨i, hi, rfl⟩ := List.getElem_of_mem hname
    exact ⟨_, hv i hi⟩
  have hholds := (holds_eq_ok_iff he).mpr ⟨hassigned, rfl⟩
  rw [hholds, ← (faithful_of_within he h).reads_eq v _ hholds]
  refine congrArg Except.ok (NormalForm.reads_congr fun c hc l hl => ?_)
  obtain ⟨i, hi, hindex, hname⟩ := nameOfLiteral?_of_within h hc hl
  simp [Bindings.makesTrue, trueUnder, hname, hv i hi, hindex, Bool.beq_eq_decide_eq]

theorem card_holds (he : FormulaTree e) (hnone : e.comparisons = [])
    (h : within none .cnf e = .ok encoding) :
    (Finset.univ.filter fun β => e.holds (.ofTruths e.truthNames β) = .ok true).card =
      (encoding.clauses.models e.truthNames.length).card := by
  congr 1
  apply Finset.filter_congr
  intro β _
  have := holds_eq_satisfiedUnder he hnone h (v := .ofTruths e.truthNames β) (β := truthAt β)
    fun i hi => by
      rw [truthAt_succ β hi]
      exact Bindings.get?_ofTruths e.nodup_truthNames β ⟨i, hi⟩
  rw [this, Except.ok.injEq]

/-- A search for models of an encoding alone. -/
def searcher (encoding : Encoding) : ModelSearch := ModelSearch.empty.add encoding.clauses

theorem visited_searcher (encoding : Encoding) :
    encoding.searcher.visited .empty =
      (List.range (2 ^ encoding.clauses.maxIndex)).map
        (Valuation.ofNumber encoding.clauses.maxIndex) := by
  rw [ModelSearch.visited_empty]
  simp [searcher, ModelSearch.add, ModelSearch.empty]

theorem satisfiedBy_searcher (encoding : Encoding) :
    encoding.searcher.satisfiedBy = fun v => encoding.clauses.satisfiedUnder v.value := by
  funext v
  rw [ModelSearch.satisfiedBy_eq]
  rfl

/-- A valuation that satisfies the clauses comes with names for which the formula holds. -/
theorem holds_of_satisfied (he : FormulaTree e) (hnone : e.comparisons = [])
    (h : within none .cnf e = .ok encoding) {val : Valuation}
    (hsize : val.size = encoding.clauses.maxIndex + 1)
    (hval : encoding.clauses.satisfiedUnder val.value = true) :
    ∃ v, val.toSolution.toBindings encoding.numbering = .ok v ∧
      e.holds (v.complete e.truthNames (.truth false)) = .ok true := by
  have hbound := maxIndex_le_of_within h
  obtain ⟨w, hw, hvalues⟩ :=
    Valuation.get?_complete_toSolution (v := val) e.nodup_truthNames (by omega)
  refine ⟨w, (within_none_eq_ok_iff.mp h).2 ▸ hw, ?_⟩
  rw [holds_eq_satisfiedUnder he hnone h hvalues, hval]

/-- Values for which the formula holds come with a valuation that satisfies the clauses. -/
theorem satisfied_of_holds (he : FormulaTree e) (hnone : e.comparisons = [])
    (h : within none .cnf e = .ok encoding) (hv : e.holds v = .ok true) :
    ∃ val ∈ encoding.searcher.visited .empty,
      encoding.clauses.satisfiedUnder val.value = true := by
  let β : Nat → Bool := fun index => v.interpretation.truth (e.truthNames.getD (index - 1) "")
  let number := Nat.ofBits fun i : Fin encoding.clauses.maxIndex => β (i + 1)
  refine ⟨.ofNumber encoding.clauses.maxIndex number, ?_, ?_⟩
  · rw [visited_searcher]
    exact List.mem_map_of_mem (List.mem_range.mpr (Nat.ofBits_lt_two_pow _))
  · have hvalues : ∀ i (hi : i < e.truthNames.length),
        v.get? e.truthNames[i] = some (.truth (β (i + 1))) := by
      intro i hi
      have hmem := mem_vars.mpr (mem_truthNames.mp (List.getElem_mem hi))
      have := Bindings.faultOf?_truth_iff.mp (((holds_eq_ok_iff he).mp hv).1 _ hmem)
      simpa [β, List.getElem?_eq_getElem hi] using this
    rw [holds_eq_satisfiedUnder he hnone h hvalues] at hv
    rw [← Except.ok.inj hv]
    apply Clauses.satisfiedUnder_congr (indexed_of_within h)
    intro i hi
    rw [Valuation.value_ofNumber hi, Nat.testBit_ofBits_lt _ _ hi]

/-- A search over the clauses of a formula without comparisons decides whether the formula can hold,
its solution makes the formula hold, and the models that it counts stand for those of the formula,
up to the power of two for the names that vanished. -/
theorem modelSearch_spec (he : e.WellFormed) (hformula : e.isFormula = true)
    (hnone : e.comparisons = []) {σ : Type} {monitor : Monitor σ} {state started : σ}
    (hstart : monitor.start state = .ok started) (hquiet : monitor.Quiet started) :
    ∃ encoding, within none .cnf e = .ok encoding ∧
      encoding.clauses.maxIndex ≤ e.truthNames.length ∧
      (∃ verdict found final,
        encoding.searcher.search .empty monitor state = .ok (verdict, found, final) ∧
          (verdict = .satisfiable ↔ ∃ v, e.holds v = .ok true) ∧
          (verdict = .unsatisfiable ↔ ¬ ∃ v, e.holds v = .ok true) ∧
          (verdict = .satisfiable → ∃ solution, found.solution = some solution ∧
            ∃ v, solution.toBindings encoding.numbering = .ok v ∧
              e.holds (v.complete e.truthNames (.truth false)) = .ok true)) ∧
      ∃ count final,
        encoding.searcher.count .empty monitor state = .ok (.exact count, final) ∧
          count * 2 ^ (e.truthNames.length - encoding.clauses.maxIndex) =
            (Finset.univ.filter fun β => e.holds (.ofTruths e.truthNames β) = .ok true).card := by
  have htree := formulaTree_iff.mpr ⟨he, hformula⟩
  obtain ⟨encoding, h⟩ := (exists_within_none_iff htree).mpr (comparisons_normalForm .cnf htree hnone)
  refine ⟨encoding, h, maxIndex_le_of_within h, ?_, ?_⟩
  · obtain ⟨final, hsearch⟩ := ModelSearch.search_of_quiet encoding.searcher .empty hstart hquiet
    rw [satisfiedBy_searcher] at hsearch
    cases hfind : (encoding.searcher.visited .empty).find?
        fun v => encoding.clauses.satisfiedUnder v.value with
    | none =>
        have hnever : ¬ ∃ v, e.holds v = .ok true := by
          rintro ⟨v, hv⟩
          obtain ⟨val, hmem, hval⟩ := satisfied_of_holds htree hnone h hv
          exact List.find?_eq_none.mp hfind val hmem hval
        rw [hfind] at hsearch
        exact ⟨_, _, _, hsearch, iff_of_false (by decide) hnever, iff_of_true rfl hnever,
          fun hverdict => by contradiction⟩
    | some val =>
        have hmem := List.mem_of_find?_eq_some hfind
        have hval := List.find?_some hfind
        rw [visited_searcher] at hmem
        obtain ⟨k, -, rfl⟩ := List.mem_map.mp hmem
        obtain ⟨v, hv, hholds⟩ :=
          holds_of_satisfied htree hnone h (Valuation.size_ofNumber _ k) hval
        rw [hfind] at hsearch
        exact ⟨_, _, _, hsearch, iff_of_true rfl ⟨_, hholds⟩,
          iff_of_false (by decide) (not_not_intro ⟨_, hholds⟩),
          fun _ => ⟨_, rfl, v, hv, hholds⟩⟩
  · obtain ⟨final, hcount⟩ := ModelSearch.count_of_quiet encoding.searcher .empty hstart hquiet
    rw [satisfiedBy_searcher, visited_searcher,
      Clauses.countP_ofNumber (indexed_of_within h)] at hcount
    refine ⟨_, final, hcount, ?_⟩
    rw [card_holds htree hnone h,
      Clauses.card_models_of_le (indexed_of_within h) (maxIndex_le_of_within h)]

namespace ModelCountWitness

/-- A formula whose last name vanishes from its clauses: `(a | b) & (c | ~c)`. -/
def sample : Expression :=
  node .and [
    node .or [literal "a" true, literal "b" true],
    node .or [literal "c" true, literal "c" false]]

theorem silent_start : Monitor.silent.start () = .ok () := rfl

theorem silent_quiet : Monitor.silent.Quiet () := fun _ => rfl

theorem modelSearch_spec_sample :
    (sample.WellFormed ∧ sample.isFormula = true ∧ sample.comparisons = [] ∧
      Monitor.silent.start () = .ok () ∧ Monitor.silent.Quiet ()) ∧
      ∃ encoding, within none .cnf sample = .ok encoding ∧
        ∃ count, encoding.searcher.count .empty .silent () = .ok (.exact count, ()) ∧
          count * 2 ^ (3 - encoding.clauses.maxIndex) = 6 := by
  have hsample : sample.WellFormed := by decide +kernel
  have hnone : sample.comparisons = [] := by decide +kernel
  obtain ⟨encoding, h, -, -, count, final, hcount, hmodels⟩ :=
    modelSearch_spec hsample rfl hnone silent_start silent_quiet
  have hnames : sample.truthNames.length = 3 := by decide +kernel
  have hcard : (Finset.univ.filter fun β =>
      sample.holds (.ofTruths sample.truthNames β) = .ok true).card = 6 := by
    decide +kernel
  refine ⟨⟨hsample, rfl, hnone, silent_start, silent_quiet⟩, encoding, h, count, hcount, ?_⟩
  rw [← hnames, hmodels, hcard]

end ModelCountWitness

end Encoding

end ClauseForm
