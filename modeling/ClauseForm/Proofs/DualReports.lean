import ClauseForm.Proofs.DualTruth
import ClauseForm.Proofs.ExpansionLimits
import ClauseForm.Proofs.ReducedClauses

/-!
What the dual of a list is, and what is reported on the way to it.

There is one poll for every selection, and a report of each clause where it is found first.
`toDualUnder_spec` describes the dual by the selections in lexicographic order, and says what any
supervisor hears on the way and what a limit on the literals makes of it.
-/

namespace ClauseForm

namespace Clauses

variable {l : Clauses} {found : Distinct Clause} {lists : List (List Int)}

/-- The clauses of some choices, each at its first place. -/
def clausesOf (lists : List (List Int)) : List Clause := (lists.filterMap chosen?).eraseDups

/-- The reports on some choices, after some clauses were found. -/
def choicesReports (found : Distinct Clause) (lists : List (List Int)) : List Report :=
  foldReports choiceReports addChosen lists found

theorem choicesReports_cons (ls : List Int) :
    choicesReports found (ls :: lists) =
      choiceReports found ls ++ choicesReports (addChosen found ls) lists := rfl

theorem count_choiceReports (found : Distinct Clause) (ls : List Int) :
    (choiceReports found ls).count .checkpoint = 1 := by
  rw [choiceReports, List.count_cons_self, Nat.add_eq_right, List.count_eq_zero]
  split
  · exact List.not_mem_nil
  · unfold keepReports
    split <;> simp

/-- Every choice is polled once. -/
theorem count_choicesReports (lists : List (List Int)) (found : Distinct Clause) :
    (choicesReports found lists).count .checkpoint = lists.length := by
  induction lists generalizing found with
  | nil => rfl
  | cons ls lists ih =>
      rw [choicesReports_cons, List.count_append, ih, count_choiceReports, List.length_cons,
        Nat.add_comm]

theorem filter_keepReports (c : Clause) :
    (keepReports found c).filter Report.isClause = keepReports found c := by
  unfold keepReports
  split <;> rfl

/-- Besides the polls, there are the reports of the clauses that are kept. -/
theorem filter_choicesReports (lists : List (List Int)) (found : Distinct Clause) :
    (choicesReports found lists).filter Report.isClause =
      foldReports keepReports Distinct.add (lists.filterMap chosen?) found := by
  induction lists generalizing found with
  | nil => rfl
  | cons ls lists ih =>
      rw [choicesReports_cons, List.filter_append, ih, choiceReports, addChosen]
      cases hchosen : chosen? ls with
      | none =>
          rw [List.filterMap_cons_none hchosen]
          rfl
      | some c =>
          rw [List.filterMap_cons_some hchosen, foldReports]
          exact congrArg (· ++ _) (filter_keepReports c)

theorem filter_choicesReports_empty (lists : List (List Int)) :
    (choicesReports .empty lists).filter Report.isClause = clauseReports (clausesOf lists) := by
  rw [filter_choicesReports, foldReports_keep_empty, clausesOf]

theorem distribution_not_mem_choicesReports (lists : List (List Int)) :
    .distribution ∉ choicesReports found lists := by
  refine not_mem_foldReports (fun found ls => ?_) lists found
  unfold choiceReports keepReports
  split
  · simp
  · split <;> simp

/-- Only clauses have literals. -/
theorem literalsReported_filter (reports : List Report) :
    literalsReported (reports.filter Report.isClause) = literalsReported reports := by
  induction reports with
  | nil => rfl
  | cons r reports ih =>
      cases r with
      | checkpoint | distribution => simpa [Report.isClause, Report.literals] using ih
      | clause n =>
          rw [List.filter_cons_of_pos rfl, literalsReported_cons, literalsReported_cons, ih]

theorem dualReports_eq (l : Clauses) :
    l.dualReports = choicesReports .empty ((selections l.toList).map (picked l.toList)) := by
  rw [map_picked_selections]
  rfl

theorem toDual_eq_clausesOf (l : Clauses) :
    l.toDual.toList = clausesOf ((selections l.toList).map (picked l.toList)) := by
  rw [map_picked_selections, toDual_eq]
  rfl

theorem toDual_eq_mk (l : Clauses) :
    (⟨((choices (l.toList.map Literals.toList)).filterMap chosen?).eraseDups⟩ : Clauses) =
      l.toDual := by
  rw [← toDual_eq]

/-- The choices of the first selections were polled, and their clauses reported, before the next
selection is polled. -/
theorem dualReports_split {before after : List (List Nat)}
    (h : selections l.toList = before ++ after) :
    ∃ first rest, l.dualReports = first ++ rest ∧
      first.count .checkpoint = before.length ∧
      first.filter Report.isClause = clauseReports (clausesOf (before.map (picked l.toList))) ∧
      (after ≠ [] → rest.head? = some .checkpoint) := by
  refine ⟨choicesReports .empty (before.map (picked l.toList)),
    choicesReports ((before.map (picked l.toList)).foldl addChosen .empty)
      (after.map (picked l.toList)), ?_, ?_, ?_, ?_⟩
  · rw [dualReports_eq, h, List.map_append]
    exact foldReports_append ..
  · rw [count_choicesReports, List.length_map]
  · exact filter_choicesReports_empty _
  · intro hafter
    obtain ⟨s, after, rfl⟩ := List.exists_cons_of_ne_nil hafter
    rfl

/-- All polls and all reports of clauses on the way to the dual. -/
theorem dualReports_spec (l : Clauses) :
    l.dualReports.count .checkpoint = (l.toList.map Literals.size).prod ∧
      l.dualReports.filter Report.isClause = clauseReports l.toDual.toList ∧
      .distribution ∉ l.dualReports := by
  rw [dualReports_eq, toDual_eq_clausesOf, ← length_selections]
  refine ⟨?_, filter_choicesReports_empty _, distribution_not_mem_choicesReports _⟩
  rw [count_choicesReports, List.length_map]

theorem literalsReported_dualReports (l : Clauses) :
    literalsReported l.dualReports = l.toDual.literalCount := by
  rw [← literalsReported_filter, (dualReports_spec l).2.1, Clause.literalsReported_clauseReports]

/-- A supervised dual is decided by how its reports are answered. -/
theorem toDualUnder_of_start {σ : Type} {s : Supervisor σ} {state started : σ} (l : Clauses)
    (hstart : s.start state = .ok started) :
    l.toDualUnder s state =
      .ok ((s.hear l.dualReports started).1.map fun _ => l.toDual,
        (s.hear l.dualReports started).2) := by
  rw [← toDual_eq_mk]
  exact Supervisor.supervise_of_scripted hstart (scripted_toDual s.observer l)

/-- A limit stops the way to the dual exactly if the dual has more literals. -/
theorem toDualUnder_budget {b : Budget} (hb : b.maxDistributions = none) (l : Clauses) :
    ∃ final, l.toDualUnder Budget.supervisor b =
      .ok (if min l.toDual.literalCount largestCount ≤ b.maxLiterals then .ok l.toDual
        else .error (.tooManyLiterals b.maxLiterals), final) := by
  have hstart : Budget.supervisor.start b = .ok b.reset := rfl
  have hcounted : b.reset.Counted b.maxLiterals 0 := ⟨rfl, hb, rfl, rfl, Nat.zero_le _⟩
  refine ⟨(Budget.supervisor.hear l.dualReports b.reset).2, ?_⟩
  rw [toDualUnder_of_start l hstart, hcounted.hear_fst, literalsReported_dualReports, Nat.zero_add]
  split <;> rfl

/-- The dual of a list, the way to it, and what can stop it.

The selections of a position in each clause are gone through in lexicographic order.  What a
selection picks becomes a clause, sorted and with each literal once, unless an index is picked in
both signs; and the dual has these clauses, each at its first place.  There is a poll for every
selection, and a report of every clause of the dual with its number of literals, before the next
selection is polled.  Every supervisor hears these reports and no others, until it answers a poll
with yes or fails on a clause; where it does neither, the result is the dual.  So a limit on the
literals decides by the number of literals of the dual, if 64 bits are enough to count them or to
exceed the limit. -/
theorem toDualUnder_spec (l : Clauses) :
    ((selections l.toList).Pairwise (List.Lex (· < ·)) ∧
      (∀ s, s ∈ selections l.toList ↔ List.Forall₂ (fun i c => i < c.size) s l.toList) ∧
      (∀ ls, chosen? ls = none ↔ Clause.Opposed ls) ∧
      (∀ ls c, chosen? ls = some c ↔
        ¬ Clause.Opposed ls ∧ c.Increasing ∧ ∀ x, x ∈ c.toList ↔ x ∈ ls) ∧
      l.toDual.toList = clausesOf ((selections l.toList).map (picked l.toList))) ∧
    (l.dualReports.count .checkpoint = (l.toList.map Literals.size).prod ∧
      l.dualReports.filter Report.isClause = clauseReports l.toDual.toList ∧
      .distribution ∉ l.dualReports ∧
      ∀ before after, selections l.toList = before ++ after →
        ∃ first rest, l.dualReports = first ++ rest ∧
          first.count .checkpoint = before.length ∧
          first.filter Report.isClause = clauseReports (clausesOf (before.map (picked l.toList))) ∧
          (after ≠ [] → rest.head? = some .checkpoint)) ∧
    (∀ {σ : Type} (s : Supervisor σ) (state : σ),
      (∀ breakdown, s.start state = .error breakdown → l.toDualUnder s state = .error breakdown) ∧
      ∀ started, s.start state = .ok started →
        ∃ heard outcome, s.Hears started l.dualReports heard outcome ∧
          l.toDualUnder s state = .ok (outcome.map fun _ => l.toDual, s.after heard started) ∧
          l.toDualUnder s.recording (state, []) =
            .ok (outcome.map fun _ => l.toDual, s.after heard started, heard)) ∧
    ∀ b : Budget, b.maxDistributions = none →
      b.maxLiterals < largestCount ∨ l.toDual.literalCount ≤ largestCount →
        ∃ final, l.toDualUnder Budget.supervisor b =
          .ok (if l.toDual.literalCount ≤ b.maxLiterals then .ok l.toDual
            else .error (.tooManyLiterals b.maxLiterals), final) := by
  obtain ⟨hpolls, hclauses, hdistributions⟩ := dualReports_spec l
  refine ⟨⟨pairwise_selections _, fun s => mem_selections, fun ls => Clause.reduced?_eq_none_iff,
    fun ls c => Clause.reduced?_eq_some_iff, toDual_eq_clausesOf l⟩,
    ⟨hpolls, hclauses, hdistributions, fun _ _ => dualReports_split⟩, ?_, ?_⟩
  · intro σ s state
    constructor
    · exact fun breakdown hstart => Supervisor.supervise_of_breakdown hstart _
    · intro started hstart
      obtain ⟨heard, outcome, hplain, hrecorded, hhears⟩ :=
        s.hear_recording l.dualReports started []
      refine ⟨heard, outcome, hhears, ?_, ?_⟩
      · rw [toDualUnder_of_start l hstart, hplain]
      · rw [toDualUnder_of_start l (Supervisor.start_recording hstart []), hrecorded]
        rfl
  · intro b hb hcounts
    have hlimit : min l.toDual.literalCount largestCount ≤ b.maxLiterals ↔
        l.toDual.literalCount ≤ b.maxLiterals := by omega
    obtain ⟨final, hresult⟩ := toDualUnder_budget hb l
    simp only [hlimit] at hresult
    exact ⟨final, hresult⟩

namespace DualReportsWitness

/-- Two clauses of two literals, with an opposed choice. -/
def sample : Clauses := ⟨[⟨#[1, 2]⟩, ⟨#[-1, 3]⟩]⟩

theorem chosen?_of_increasing {ls ks : List Int} (hkept : ¬ Clause.Opposed ls)
    (hincreasing : ks.Pairwise (· < ·)) (hmem : ∀ l, l ∈ ks ↔ l ∈ ls) :
    chosen? ls = some ⟨ks.toArray⟩ :=
  Clause.reduced?_eq_some_iff.mpr ⟨hkept, hincreasing, hmem⟩

theorem toDual_sample : sample.toDual = ⟨[⟨#[1, 3]⟩, ⟨#[-1, 2]⟩, ⟨#[2, 3]⟩]⟩ := by
  have hopposed : chosen? [1, -1] = none := Clause.reduced?_eq_none_iff.mpr ⟨1, by decide⟩
  have hfirst : chosen? [1, 3] = some ⟨#[1, 3]⟩ :=
    chosen?_of_increasing (by simp [Clause.Opposed]) (by decide) (by simp)
  have hsecond : chosen? [2, -1] = some ⟨#[-1, 2]⟩ :=
    chosen?_of_increasing (by simp [Clause.Opposed]) (by decide) (by simp [or_comm])
  have hthird : chosen? [2, 3] = some ⟨#[2, 3]⟩ :=
    chosen?_of_increasing (by simp [Clause.Opposed]) (by decide) (by simp)
  have hchoices : choices (sample.toList.map Literals.toList) =
      [[1, -1], [1, 3], [2, -1], [2, 3]] := rfl
  rw [← toDual_eq_mk, hchoices]
  simp only [List.filterMap_cons, List.filterMap_nil, hopposed, hfirst, hsecond, hthird]
  rfl

/-- A limit of six literals admits the dual, and one of five does not. -/
theorem toDualUnder_spec_sample :
    sample.dualReports.count .checkpoint = 4 ∧
      sample.dualReports.filter Report.isClause = [.clause 2, .clause 2, .clause 2] ∧
      (∃ final, sample.toDualUnder Budget.supervisor (.new 6 none) =
        .ok (.ok sample.toDual, final)) ∧
      ∃ final, sample.toDualUnder Budget.supervisor (.new 5 none) =
        .ok (.error (.tooManyLiterals 5), final) := by
  obtain ⟨-, ⟨hpolls, hclauses, -⟩, -, hlimit⟩ := toDualUnder_spec sample
  rw [toDual_sample] at hclauses hlimit
  refine ⟨hpolls, hclauses, ?_, ?_⟩
  · rw [toDual_sample]
    exact hlimit (.new 6 none) rfl (Or.inl (by decide))
  · exact hlimit (.new 5 none) rfl (Or.inl (by decide))

end DualReportsWitness

end Clauses

end ClauseForm
