import ClauseForm.Proofs.Supervisors
import ClauseForm.Supervision.Budget
import Mathlib.Data.List.Induction

/-!
When the flag of a budget tells that a limit is exceeded.

A budget counts literals and distributions apart and compares each count with a limit of its own,
but all reports set one flag, each from its own count alone.  So the flag tells of the kind of report
that was counted last, and a report of the other kind takes a signal back.  `exceeded_after_reports`
states this, with the exact condition under which the flag is right.  A computation that ends with
the first report that fails never sees it wrong.
-/

namespace ClauseForm

namespace Budget

variable {l : Budget} {r : Report} {reports : List Report}

/-! ### Limits that are exceeded -/

/-- The literals counted so far exceed their limit. -/
def OverLiterals (l : Budget) : Prop := l.maxLiterals < l.literals

/-- The distributions counted so far exceed their limit, if there is one. -/
def OverDistributions (l : Budget) : Prop :=
  ∃ limit, l.maxDistributions = some limit ∧ limit < l.distributions

/-- Some limit is exceeded. -/
def Over (l : Budget) : Prop := l.OverLiterals ∨ l.OverDistributions

/-- The limit that a report is counted against is exceeded.  A poll is counted against none. -/
def OverFor (l : Budget) : Report → Prop
  | .checkpoint => False
  | .distribution => l.OverDistributions
  | .clause _ => l.OverLiterals

theorem OverFor.over (h : l.OverFor r) : l.Over := by
  cases r with
  | checkpoint => exact h.elim
  | distribution => exact Or.inr h
  | clause n => exact Or.inl h

theorem any_limit_iff {distributions : Nat} {limit? : Option Nat} :
    (limit?.any fun limit => decide (limit < distributions)) = true ↔
      ∃ limit, limit? = some limit ∧ limit < distributions := by
  cases limit? <;> simp

/-! ### One report -/

/-- A report that is counted sets the flag by the limit that it is counted against. -/
theorem exceeded_answer (hr : r ≠ .checkpoint) (l : Budget) :
    (supervisor.answer r l).2.exceeded = true ↔ (supervisor.answer r l).2.OverFor r := by
  cases r with
  | checkpoint => exact absurd rfl hr
  | distribution => exact any_limit_iff
  | clause n => exact decide_eq_true_iff

/-- A report is answered well if the flag is not set after it. -/
theorem answer_fst_eq_ok_iff (r : Report) (l : Budget) :
    (supervisor.answer r l).1 = .ok () ↔ (supervisor.answer r l).2.exceeded = false := by
  have hchoice : ∀ {flag : Bool} {error : ExpansionError},
      (if flag = true then Except.error error else .ok ()) = .ok () ↔ flag = false := by
    intro flag error
    cases flag <;> simp
  cases r <;> exact hchoice

/-- While the flag is not set, a report can only bring the count over its own limit. -/
theorem over_answer_iff (hl : ¬ l.Over) (r : Report) :
    (supervisor.answer r l).2.Over ↔ (supervisor.answer r l).2.OverFor r := by
  refine ⟨?_, OverFor.over⟩
  intro hover
  cases r with
  | checkpoint => exact absurd hover hl
  | distribution => exact hover.resolve_left fun hliterals => hl (Or.inl hliterals)
  | clause n => exact hover.resolve_right fun hdistributions => hl (Or.inr hdistributions)

/-! ### Many reports -/

/-- The last of some reports that a budget counts. -/
def lastCounted? (reports : List Report) : Option Report :=
  (reports.filter (· != .checkpoint)).getLast?

theorem lastCounted?_concat (reports : List Report) (r : Report) :
    lastCounted? (reports ++ [r]) =
      if r = .checkpoint then lastCounted? reports else some r := by
  rw [lastCounted?, List.filter_append]
  split
  · next hr => rw [hr, List.filter_cons_of_neg (by decide), List.filter_nil, List.append_nil,
      lastCounted?]
  · next hr => rw [List.filter_cons_of_pos (by simpa using hr), List.filter_nil,
      List.getLast?_concat]

/-- A budget has the limits of another one, and has counted some reports from zero on. -/
structure Counts (l limits : Budget) (reports : List Report) : Prop where
  literals : l.literals = min (literalsReported reports) largestCount
  distributions : l.distributions = reports.count .distribution
  maxLiterals : l.maxLiterals = limits.maxLiterals
  maxDistributions : l.maxDistributions = limits.maxDistributions

theorem counts_reset (limits : Budget) : limits.reset.Counts limits [] where
  literals := (Nat.zero_min _).symm
  distributions := rfl
  maxLiterals := rfl
  maxDistributions := rfl

/-- One more report is counted. -/
theorem Counts.answer {limits : Budget} (h : l.Counts limits reports) (r : Report) :
    (supervisor.answer r l).2.Counts limits (reports ++ [r]) := by
  obtain ⟨hliterals, hdistributions, hmaxLiterals, hmaxDistributions⟩ := h
  refine ⟨?_, ?_, ?_, ?_⟩
  · rw [literalsReported_append, literalsReported_cons]
    cases r with
    | checkpoint | distribution => exact hliterals
    | clause n =>
        change min (l.literals + n) largestCount = min (literalsReported reports + (n + 0)) _
        omega
  · rw [List.count_append]
    cases r with
    | checkpoint | clause => exact hdistributions
    | distribution => exact congrArg (· + 1) hdistributions
  · cases r <;> exact hmaxLiterals
  · cases r <;> exact hmaxDistributions

theorem after_concat (reports : List Report) (r : Report) (l : Budget) :
    supervisor.after (reports ++ [r]) l = (supervisor.answer r (supervisor.after reports l)).2 := by
  rw [Supervisor.after, List.foldl_append]
  rfl

/-- After a start, all reports are counted, whatever was answered to them. -/
theorem counts_after (limits : Budget) (reports : List Report) :
    (supervisor.after reports limits.reset).Counts limits reports := by
  induction reports using List.reverseRecOn with
  | nil => exact counts_reset limits
  | append_singleton reports r ih =>
      rw [after_concat]
      exact ih.answer r

/-- After a start, the flag tells whether the limit of the report counted last is exceeded. -/
theorem exceeded_after_iff (l : Budget) (reports : List Report) :
    (supervisor.after reports l.reset).exceeded = true ↔
      ∃ r, lastCounted? reports = some r ∧ (supervisor.after reports l.reset).OverFor r := by
  induction reports using List.reverseRecOn with
  | nil => simp [lastCounted?, Supervisor.after, reset]
  | append_singleton reports r ih =>
      rw [after_concat, lastCounted?_concat]
      by_cases hr : r = .checkpoint
      · -- a poll leaves the budget as it is
        rw [if_pos hr, hr]
        exact ih
      · rw [if_neg hr, exceeded_answer hr]
        simp

/-! ### Computations that end with the first failure -/

/-- As long as no report fails the flag is not set and no limit is exceeded, and a report that fails
comes with both. -/
theorem hear_exceeded_iff (hflag : l.exceeded = false) (hl : ¬ l.Over) (script : List Report) :
    ((supervisor.hear script l).2.exceeded = true ↔ (supervisor.hear script l).2.Over) ∧
      ((supervisor.hear script l).1 = .ok () ↔ ¬ (supervisor.hear script l).2.Over) := by
  induction script generalizing l with
  | nil => simp [Supervisor.hear, hflag, hl]
  | cons r script ih =>
      have hanswer := answer_fst_eq_ok_iff r l
      have hover := over_answer_iff hl r
      have hset : (supervisor.answer r l).2.exceeded = true ↔
          (supervisor.answer r l).2.OverFor r := by
        by_cases hr : r = .checkpoint
        · subst hr
          change l.exceeded = true ↔ False
          simp [hflag]
        · exact exceeded_answer hr l
      rw [Supervisor.hear]
      rcases hr : supervisor.answer r l with ⟨⟨error⟩ | ⟨⟩, later⟩
      · rw [hr] at hanswer hover hset
        have hexceeded : later.exceeded = true := by simpa using hanswer
        have hlater : later.Over := hover.mpr (hset.mp hexceeded)
        simp [hexceeded, hlater]
      · rw [hr] at hanswer hover hset
        have hexceeded : later.exceeded = false := hanswer.mp rfl
        refine ih hexceeded ?_
        rw [hover, ← hset, hexceeded]
        exact Bool.false_ne_true

/-- A start clears a budget.  After that all reports are counted, also those after a failure, and
the flag tells whether the limit of the report counted last is exceeded.  So it is set only if a
limit is exceeded; it tells exactly whether one is, unless the only exceeded limit is that of the
other kind of reports.  That does not happen in a computation that ends with the first report that
fails. -/
theorem exceeded_after_reports (l : Budget) (reports : List Report) :
    supervisor.start l = .ok l.reset ∧ l.reset.exceeded = false ∧ l.reset.Counts l [] ∧
    (supervisor.after reports l.reset).Counts l reports ∧
    ((supervisor.after reports l.reset).exceeded = true ↔
      ∃ r, lastCounted? reports = some r ∧ (supervisor.after reports l.reset).OverFor r) ∧
    (((supervisor.after reports l.reset).exceeded = true ↔
        (supervisor.after reports l.reset).Over) ↔
      ((supervisor.after reports l.reset).Over →
        ∃ r, lastCounted? reports = some r ∧ (supervisor.after reports l.reset).OverFor r)) ∧
    ((supervisor.hear reports l.reset).2.exceeded = true ↔
      (supervisor.hear reports l.reset).2.Over) ∧
    ((supervisor.hear reports l.reset).1 = .ok () ↔
      ¬ (supervisor.hear reports l.reset).2.Over) := by
  have hflag := exceeded_after_iff l reports
  have hfresh : ¬ l.reset.Over := by
    rintro (hliterals | ⟨limit, -, hdistributions⟩)
    · exact Nat.not_lt_zero _ hliterals
    · exact Nat.not_lt_zero _ hdistributions
  refine ⟨rfl, rfl, counts_reset l, counts_after l reports, hflag, ?_, ?_⟩
  · rw [hflag]
    refine ⟨Iff.mpr, fun hlast => ⟨?_, hlast⟩⟩
    rintro ⟨r, -, hover⟩
    exact hover.over
  · exact hear_exceeded_iff rfl hfresh reports

namespace ExceededLimitsWitness

/-- A report of two literals and then one of a distribution. -/
def twoKinds : List Report := [.clause 2, .distribution]

/-- The flag is set when the literals exceed the limit, and cleared by the distribution after that,
although there is no limit on distributions and the literals still exceed theirs. -/
theorem signal_taken_back :
    (supervisor.after [.clause 2] (new 1 none).reset).exceeded = true ∧
      (supervisor.after twoKinds (new 1 none).reset).Over ∧
      ¬ ((supervisor.after twoKinds (new 1 none).reset).exceeded = true ↔
        (supervisor.after twoKinds (new 1 none).reset).Over) := by
  have hover : (supervisor.after twoKinds (new 1 none).reset).Over := Or.inl (by
    change 1 < 2
    decide)
  have hflag : (supervisor.after twoKinds (new 1 none).reset).exceeded = false := by decide
  refine ⟨by decide, hover, ?_⟩
  rw [hflag]
  exact fun h => Bool.false_ne_true (h.mpr hover)

end ExceededLimitsWitness

end Budget

end ClauseForm
