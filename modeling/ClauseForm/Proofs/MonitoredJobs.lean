import ClauseForm.Proofs.ExpansionLimits
import ClauseForm.Proofs.JobResults
import ClauseForm.Proofs.Monitors

/-!
How jobs end under a monitor and an optional limit on the literals.

Along the reports of an expansion two things can happen: the monitor answers a poll with yes, or the
literals exceed the limit.  Whichever happens first decides how a job ends, and `run_jobs_spec` says
so for both kinds of jobs that expand.
-/

namespace ClauseForm

/-- The literals that some reports tell of exceed an optional limit.  Counting stops at the largest
count. -/
def overruns (limit : Option Nat) (reports : List Report) : Bool :=
  limit.any fun n => decide (n < min (literalsReported reports) largestCount)

theorem overruns_some_iff {n : Nat} {reports : List Report} :
    overruns (some n) reports = true ↔ n < min (literalsReported reports) largestCount := by
  simp [overruns]

/-- More reports do not bring the literals back within a limit. -/
theorem overruns_mono {limit : Option Nat} {reports more : List Report}
    (h : overruns limit reports = true) : overruns limit (reports ++ more) = true := by
  cases limit with
  | none => contradiction
  | some n =>
      rw [overruns_some_iff] at h ⊢
      rw [literalsReported_append]
      omega

/-- A budget that has counted the literals of some reports, if there is a limit. -/
inductive Tracks : Option Nat → List Report → Option Budget → Prop where
  | unlimited {past : List Report} : Tracks none past none
  | limited {n : Nat} {past : List Report} {l : Budget} :
      l.Counted n (literalsReported past) → Tracks (some n) past (some l)

theorem Tracks.overruns_eq_false {limit : Option Nat} {past : List Report} {budget : Option Budget}
    (h : Tracks limit past budget) : overruns limit past = false := by
  cases h with
  | unlimited => rfl
  | limited hl =>
      have hle := hl.literals_le
      rw [hl.literals_eq] at hle
      exact Bool.eq_false_iff.mpr fun hover => Nat.not_lt.mpr hle (overruns_some_iff.mp hover)

namespace Monitor

variable {σ : Type} {monitor : Monitor σ} {state : σ} {limit : Option Nat} {budget : Option Budget}
  {r : Report} {past script : List Report}

/-- Some reports come after others.  On the way through them the monitor answers a poll with yes,
while the literals are still within the limit. -/
def StopsFirst (monitor : Monitor σ) (limit : Option Nat) (past script : List Report) (state : σ) :
    Prop :=
  ∃ before rest, script = before ++ .checkpoint :: rest ∧ overruns limit (past ++ before) = false ∧
    monitor.answer (before.count .checkpoint) state = true

/-- How a job ends that makes some reports after others: it is canceled, it has too many literals,
or it makes all the reports. -/
inductive Ends (monitor : Monitor σ) (limit : Option Nat) (past script : List Report) (state : σ) :
    Except JobError Unit → Prop where
  | canceled : monitor.StopsFirst limit past script state →
      Ends monitor limit past script state (.error .canceled)
  | exceeded (n : Nat) : ¬ monitor.StopsFirst limit past script state → limit = some n →
      overruns limit (past ++ script) = true →
      Ends monitor limit past script state (.error (.expansion (.tooManyLiterals n)))
  | completed : ¬ monitor.StopsFirst limit past script state →
      overruns limit (past ++ script) = false →
      Ends monitor limit past script state (.ok ())

theorem start_limited {started : σ} (hstart : monitor.start state = .ok started)
    (budget : Option Budget) :
    monitor.limited.start (state, budget) = .ok (started, budget.map Budget.reset) := by
  change (monitor.start state >>= _) = _
  rw [hstart]
  rfl

theorem answer_succ (monitor : Monitor σ) (k : Nat) (state : σ) :
    monitor.answer (k + 1) state = monitor.answer k (monitor.poll state).2 := rfl

theorem not_stopsFirst_nil : ¬ monitor.StopsFirst limit past [] state := by
  rintro ⟨before, rest, hscript, -⟩
  simp at hscript

theorem not_stopsFirst_of_overruns (h : overruns limit past = true) :
    ¬ monitor.StopsFirst limit past script state := by
  rintro ⟨before, rest, -, hwithin, -⟩
  rw [overruns_mono h] at hwithin
  contradiction

theorem stopsFirst_cons_checkpoint :
    monitor.StopsFirst limit past (.checkpoint :: script) state ↔
      overruns limit past = false ∧ (monitor.poll state).1 = true ∨
        monitor.StopsFirst limit (past ++ [.checkpoint]) script (monitor.poll state).2 := by
  constructor
  · rintro ⟨before, rest, hscript, hwithin, hyes⟩
    cases before with
    | nil => exact Or.inl ⟨by simpa using hwithin, hyes⟩
    | cons r before =>
        obtain ⟨rfl, rfl⟩ := List.cons.inj hscript
        rw [List.count_cons_self, answer_succ] at hyes
        exact Or.inr ⟨before, rest, rfl, by simpa using hwithin, hyes⟩
  · rintro (⟨hwithin, hyes⟩ | ⟨before, rest, rfl, hwithin, hyes⟩)
    · exact ⟨[], script, rfl, by simpa using hwithin, hyes⟩
    · refine ⟨.checkpoint :: before, rest, rfl, by simpa using hwithin, ?_⟩
      rwa [List.count_cons_self, answer_succ]

theorem stopsFirst_cons (hr : r ≠ .checkpoint) :
    monitor.StopsFirst limit past (r :: script) state ↔
      monitor.StopsFirst limit (past ++ [r]) script state := by
  constructor
  · rintro ⟨before, rest, hscript, hwithin, hyes⟩
    cases before with
    | nil => exact absurd (List.cons.inj hscript).1 hr
    | cons b before =>
        obtain ⟨rfl, rfl⟩ := List.cons.inj hscript
        rw [List.count_cons_of_ne hr] at hyes
        exact ⟨before, rest, rfl, by simpa using hwithin, hyes⟩
  · rintro ⟨before, rest, rfl, hwithin, hyes⟩
    refine ⟨r :: before, rest, rfl, by simpa using hwithin, ?_⟩
    rwa [List.count_cons_of_ne hr]

theorem Ends.of_cons {next : σ} {ending : Except JobError Unit}
    (hiff : monitor.StopsFirst limit past (r :: script) state ↔
      monitor.StopsFirst limit (past ++ [r]) script next)
    (h : monitor.Ends limit (past ++ [r]) script next ending) :
    monitor.Ends limit past (r :: script) state ending := by
  have hreports : past ++ [r] ++ script = past ++ r :: script := by simp
  cases h with
  | canceled hstops => exact .canceled (hiff.mpr hstops)
  | exceeded n hgoes hlimit hover => exact .exceeded n (mt hiff.mp hgoes) hlimit (hreports ▸ hover)
  | completed hgoes hwithin => exact .completed (mt hiff.mp hgoes) (hreports ▸ hwithin)

/-- A poll goes to the monitor alone, as long as the literals are within the limit. -/
theorem answer_limited_checkpoint (monitor : Monitor σ) (state : σ) (h : Tracks limit past budget) :
    monitor.limited.answer .checkpoint (state, budget) =
      (if (monitor.poll state).1 then .error .canceled else .ok (), (monitor.poll state).2,
        budget) ∧
      Tracks limit (past ++ [.checkpoint]) budget := by
  cases h with
  | unlimited => exact ⟨by simp [Supervisor.answer, limited], .unlimited⟩
  | limited hl =>
      refine ⟨by simp [Supervisor.answer, limited, hl.not_exceeded], .limited ?_⟩
      simpa [literalsReported, Report.literals] using hl

/-- Other reports go to the limit alone. -/
theorem answer_limited_other (monitor : Monitor σ) (state : σ) (h : Tracks limit past budget)
    (hr : r ≠ .checkpoint) :
    (overruns limit (past ++ [r]) = false ∧ ∃ later,
      monitor.limited.answer r (state, budget) = (.ok (), state, later) ∧
        Tracks limit (past ++ [r]) later) ∨
    (overruns limit (past ++ [r]) = true ∧ ∃ n later, limit = some n ∧
      monitor.limited.answer r (state, budget) = (.error (.tooManyLiterals n), state, later)) := by
  cases h with
  | unlimited =>
      refine Or.inl ⟨rfl, none, ?_, .unlimited⟩
      cases r <;> first | rfl | contradiction
  | @limited n past l hl =>
      have hanswer : monitor.limited.answer r (state, some l) =
          ((Budget.supervisor.answer r l).1, state, some (Budget.supervisor.answer r l).2) := by
        cases r <;> first | rfl | contradiction
      have hcount : literalsReported (past ++ [r]) = literalsReported past + r.literals := by
        simp [literalsReported]
      by_cases hover : overruns (some n) (past ++ [r]) = true
      · refine Or.inr ⟨hover, n, ?_⟩
        rw [overruns_some_iff, hcount] at hover
        obtain ⟨later, hlater⟩ := hl.answer_of_lt hover
        exact ⟨some later, rfl, by rw [hanswer, hlater]⟩
      · refine Or.inl ⟨by simpa using hover, ?_⟩
        rw [overruns_some_iff, hcount, Nat.not_lt] at hover
        obtain ⟨later, hlater, hcounted⟩ := hl.answer_of_le hover
        exact ⟨some later, by rw [hanswer, hlater], .limited (hcount ▸ hcounted)⟩

/-- Under a monitor with a limit, a job that makes some reports ends as it should. -/
theorem ends_hear (h : Tracks limit past budget) :
    monitor.Ends limit past script state
      ((monitor.limited.hear script (state, budget)).1.mapError .ofExpansion) := by
  induction script generalizing past state budget with
  | nil => exact .completed not_stopsFirst_nil (by simpa using h.overruns_eq_false)
  | cons r script ih =>
      rw [Supervisor.hear]
      by_cases hr : r = .checkpoint
      · subst hr
        obtain ⟨hanswer, hlater⟩ := answer_limited_checkpoint monitor state h
        rw [hanswer]
        cases hpoll : (monitor.poll state).1 with
        | true =>
            exact .canceled (stopsFirst_cons_checkpoint.mpr (Or.inl ⟨h.overruns_eq_false, hpoll⟩))
        | false =>
            refine (ih hlater).of_cons ?_
            simp [stopsFirst_cons_checkpoint, hpoll]
      · rcases answer_limited_other monitor state h hr with
          ⟨-, later, hanswer, hlater⟩ | ⟨hover, n, later, hlimit, hanswer⟩
        · rw [hanswer]
          exact (ih hlater).of_cons (stopsFirst_cons hr)
        · rw [hanswer]
          refine .exceeded n ?_ hlimit ?_
          · rw [stopsFirst_cons hr]
            exact not_stopsFirst_of_overruns hover
          · rw [← List.singleton_append, ← List.append_assoc]
            exact overruns_mono hover

end Monitor

variable {σ : Type} {monitor : Monitor σ} {state started : σ} {e : Expression} {form : NormalForm}
  {limit : Option Nat} {ending : Except JobError Unit}

theorem tracks_jobBudget (limit : Option Nat) :
    Tracks limit [] ((jobBudget limit).map Budget.reset) := by
  cases limit with
  | none => exact .unlimited
  | some n => exact .limited (Budget.counted_new n)

theorem Encoding.ofExpansion_eq (outcome : Except ExpansionError Expression) :
    ofExpansion form e outcome = (outcome.mapError .ofExpansion).bind (ofNormalForm form e) := by
  cases outcome <;> rfl

/-- An encoding has the clauses of the normal form over the names of the expression itself. -/
theorem Encoding.ofNormalForm_eq (form : NormalForm) (e normal : Expression) :
    ofNormalForm form e normal =
      ((normal.toClauses form (.ofExpression e)).map fun clauses =>
        Encoding.mk clauses (.ofExpression e)).mapError .extraction := by
  rw [ofNormalForm]
  cases normal.toClauses form (.ofExpression e) <;> rfl

/-- A limit alone lets an expansion end as a job does while nobody watches. -/
theorem Monitor.Ends.normalFormWithin_eq
    (h : Monitor.silent.Ends limit [] (e.reports form) () ending) :
    (e.normalFormWithin limit form).mapError .ofExpansion =
      ending.map fun _ => e.normalForm form := by
  cases h with
  | canceled hstops =>
      obtain ⟨before, rest, -, -, hyes⟩ := hstops
      contradiction
  | exceeded n hgoes hlimit hover =>
      subst hlimit
      rw [List.nil_append, overruns_some_iff] at hover
      rw [Expression.normalFormWithin_some, Expression.literalsMade,
        if_neg (Nat.not_le.mpr hover)]
      rfl
  | completed hgoes hwithin =>
      cases limit with
      | none => rfl
      | some n =>
          rw [List.nil_append, ← Bool.not_eq_true, overruns_some_iff, Nat.not_lt] at hwithin
          rw [Expression.normalFormWithin_some, Expression.literalsMade, if_pos hwithin]
          rfl

/-- Both kinds of jobs that expand end alike under a monitor. -/
theorem exists_ends_run (hstart : monitor.start state = .ok started) (e : Expression)
    (form : NormalForm) (limit : Option Nat) :
    ∃ ending final, monitor.Ends limit [] (e.reports form) started ending ∧
      Job.run (NormalFormJob.mk e form limit) monitor state =
        .ok (ending.map fun _ => e.normalForm form, final) ∧
      Job.run (EncodingJob.mk e form limit) monitor state =
        .ok (ending.bind fun _ => Encoding.ofNormalForm form e (e.normalForm form), final) := by
  have hends : monitor.Ends limit [] (e.reports form) started _ :=
    Monitor.ends_hear (tracks_jobBudget limit)
  rw [run_normalFormJob, run_encodingJob,
    Expression.normalFormUnder_of_start form e (Monitor.start_limited hstart _)]
  generalize monitor.limited.hear (e.reports form) (started, (jobBudget limit).map Budget.reset) =
    heard at hends
  obtain ⟨outcome, final, left⟩ := heard
  refine ⟨_, final, hends, ?_, ?_⟩
  · cases outcome <;> rfl
  · cases outcome <;> rfl

/-- How jobs end under a monitor.  A job is canceled if the monitor answers a poll with yes before
the literals of the clauses exceed the limit; it has too many literals if they exceed it first; and
otherwise it has its result.  That is the normal form, or the clauses that are read off it with the
numbering of the names in the expression, or the faults that keep them from being read off.  While
nobody watches, jobs have the results of the functions that only take a limit.  Below the largest
count the literals are counted exactly. -/
theorem run_jobs_spec (hstart : monitor.start state = .ok started) (e : Expression)
    (form : NormalForm) (limit : Option Nat) :
    (∃ ending final, monitor.Ends limit [] (e.reports form) started ending ∧
      Job.run (NormalFormJob.mk e form limit) monitor state =
        .ok (ending.map fun _ => e.normalForm form, final) ∧
      Job.run (EncodingJob.mk e form limit) monitor state =
        .ok (ending.bind fun _ =>
          (((e.normalForm form).toClauses form (.ofExpression e)).map fun clauses =>
            Encoding.mk clauses (.ofExpression e)).mapError .extraction, final)) ∧
    Job.run (NormalFormJob.mk e form limit) .silent () =
      .ok ((e.normalFormWithin limit form).mapError .ofExpansion, ()) ∧
    Job.run (EncodingJob.mk e form limit) .silent () = .ok (Encoding.within limit form e, ()) ∧
    Encoding.within limit form e =
      ((e.normalFormWithin limit form).mapError .ofExpansion).bind (fun normal =>
        ((normal.toClauses form (.ofExpression e)).map fun clauses =>
          Encoding.mk clauses (.ofExpression e)).mapError .extraction) ∧
    ∀ n < largestCount, ∀ reports : List Report,
      overruns (some n) reports = true ↔ n < literalsReported reports := by
  have hsilent : Monitor.silent.start () = .ok () := rfl
  obtain ⟨ending, final, hends, hnormal, hencoding⟩ := exists_ends_run hsilent e form limit
  simp only [← Encoding.ofNormalForm_eq]
  refine ⟨exists_ends_run hstart e form limit, ?_, ?_, ?_, fun n hn reports => ?_⟩
  · rw [hnormal, hends.normalFormWithin_eq]
  · rw [hencoding, Encoding.within, Encoding.ofExpansion_eq, hends.normalFormWithin_eq]
    cases ending <;> rfl
  · exact Encoding.ofExpansion_eq _
  · rw [overruns_some_iff]
    omega

namespace MonitoredJobsWitness

/-- A monitor that answers yes from its second poll on. -/
def impatient : Monitor Nat where
  start := fun _ => .ok 0
  poll := fun polls => (decide (1 ≤ polls), polls + 1)

/-- A negated disjunction: two atoms are visited before the conjunction of them. -/
def sample : Expression :=
  .node .not [.node .or [.literal "a" true, .literal "b" false]]

/-- A list of two clauses. -/
def listed : Expression :=
  .node .and [.node .or [.literal "b" false], .node .or [.literal "a" true]]

/-- A list of a clause with a comparison. -/
def compared : Expression :=
  .node .and [.node .or [.literal "a" true, .node (.compare .less) [.unknown "x", .constant 1]]]

theorem reports_sample : sample.reports .cnf =
    [.checkpoint, .clause 1, .checkpoint, .clause 1, .checkpoint] := by
  decide +kernel

theorem stopsFirst_sample : impatient.StopsFirst (some 1) [] (sample.reports .cnf) 0 := by
  rw [reports_sample]
  exact ⟨[.checkpoint, .clause 1], [.clause 1, .checkpoint], rfl, by decide, by decide⟩

theorem run_jobs_spec_sample :
    impatient.start 7 = .ok 0 ∧
      (∃ final, Job.run (NormalFormJob.mk sample .cnf (some 1)) impatient 7 =
        .ok (.error .canceled, final)) ∧
      Job.run (NormalFormJob.mk sample .cnf (some 1)) .silent () =
        .ok (.error (.expansion (.tooManyLiterals 1)), ()) ∧
      Job.run (EncodingJob.mk listed .cnf none) .silent () =
        .ok (.ok ⟨⟨[⟨#[-1]⟩, ⟨#[2]⟩]⟩, ⟨[(1, "b"), (2, "a")], 2⟩⟩, ()) ∧
      Job.run (EncodingJob.mk compared .cnf none) .silent () =
        .ok (.error (.extraction (.single (.notInClause (.compare .less)))), ()) ∧
      (overruns (some 1) (sample.reports .cnf) = true ↔ 1 < 2) := by
  have hstart : impatient.start 7 = .ok 0 := rfl
  obtain ⟨⟨ending, final, hends, hnormal, -⟩, hsilent, -, -, hcount⟩ :=
    run_jobs_spec hstart sample .cnf (some 1)
  obtain ⟨-, -, hencoded, hclauses, -⟩ := run_jobs_spec hstart listed .cnf none
  obtain ⟨-, -, hfailed, hfaults, -⟩ := run_jobs_spec hstart compared .cnf none
  have hmade : sample.literalsMade .cnf = 2 := by decide +kernel
  refine ⟨hstart, ⟨final, ?_⟩, ?_, ?_, ?_, ?_⟩
  · cases hends with
    | canceled => exact hnormal
    | exceeded n hgoes => exact absurd stopsFirst_sample hgoes
    | completed hgoes => exact absurd stopsFirst_sample hgoes
  · rw [hsilent, Expression.normalFormWithin_some, hmade]
    rfl
  · have hread : listed.toClauses .cnf (.ofExpression listed) =
        .ok ⟨[⟨#[-1]⟩, ⟨#[2]⟩]⟩ := by decide +kernel
    have hnames : Numbering.ofExpression listed = ⟨[(1, "b"), (2, "a")], 2⟩ := by decide +kernel
    have hkept : listed.normalForm .cnf = listed :=
      Expression.normalForm_of_isClauseList (by decide +kernel)
    rw [hencoded, hclauses, Expression.normalFormWithin, hkept, ← hnames]
    exact congrArg (fun read => Except.ok (Except.mapError _ (Except.map _ read), ())) hread
  · have hread : compared.toClauses .cnf (.ofExpression compared) =
        .error (.single (.notInClause (.compare .less))) := by decide +kernel
    have hkept : compared.normalForm .cnf = compared :=
      Expression.normalForm_of_isClauseList (by decide +kernel)
    rw [hfailed, hfaults, Expression.normalFormWithin, hkept]
    exact congrArg (fun read => Except.ok (Except.mapError _ (Except.map _ read), ())) hread
  · rw [hcount 1 (by decide), ← Expression.literalsMade, hmade]

end MonitoredJobsWitness

end ClauseForm
