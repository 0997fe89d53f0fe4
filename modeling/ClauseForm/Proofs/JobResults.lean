import ClauseForm.Job.Cache
import ClauseForm.Proofs.ExpansionReports
import ClauseForm.Proofs.Faults

/-!
Results of jobs under different monitors.

A monitor can keep a job from having a result, but it can not change the result: if a job has one
under any monitor, it has the same one while nobody watches, with the same limit on its literals.
`steady_nnfJob`, `steady_normalFormJob` and `steady_encodingJob` say so for the three kinds of jobs.
-/

namespace ClauseForm

deriving instance ReflBEq, LawfulBEq for NnfJob, NormalFormJob, EncodingJob

variable {κ ρ σ α : Type}

/-- What a job gives while nobody watches. -/
def Job.Gives [Job κ ρ] (job : κ) (result : ρ) : Prop :=
  Job.run job .silent () = .ok (.ok result, ())

/-- The results of a kind of jobs do not depend on the monitor. -/
def Steady (κ : Type) {ρ : Type} [Job κ ρ] : Prop :=
  ∀ {σ : Type} (job : κ) (monitor : Monitor σ) (state final : σ) (result : ρ),
    Job.run job monitor state = .ok (.ok result, final) → Job.Gives job result

namespace Monitor

variable {monitor : Monitor σ} {state later : σ} {limit next : Option Budget}

/-- A report that is answered well with a limit is answered well by the limit alone. -/
theorem answer_limited {r : Report}
    (h : monitor.limited.answer r (state, limit) = (.ok (), later, next)) :
    Monitor.silent.limited.answer r ((), limit) = (.ok (), (), next) := by
  cases r with
  | checkpoint =>
      obtain ⟨hpolled, hstates⟩ := Prod.mk.inj h
      obtain ⟨-, rfl⟩ := Prod.mk.inj hstates
      have hgoes : limit.any Budget.exceeded = false := by
        by_contra hstops
        simp [limited, hstops] at hpolled
      simp [Supervisor.answer, limited, silent, hgoes]
  | distribution | clause =>
      -- The monitor is not told of these reports.
      cases limit with
      | none =>
          obtain ⟨-, hstates⟩ := Prod.mk.inj h
          obtain ⟨-, rfl⟩ := Prod.mk.inj hstates
          rfl
      | some l =>
          obtain ⟨hcounted, hstates⟩ := Prod.mk.inj h
          obtain ⟨-, rfl⟩ := Prod.mk.inj hstates
          exact congrArg (·, (), _) hcounted

/-- A script that is heard out with a limit is heard out by the limit alone. -/
theorem hear_limited {script : List Report}
    (h : (monitor.limited.hear script (state, limit)).1 = .ok ()) :
    (Monitor.silent.limited.hear script ((), limit)).1 = .ok () := by
  induction script generalizing state limit with
  | nil => rfl
  | cons r script ih =>
      rw [Supervisor.hear] at h ⊢
      rcases hr : monitor.limited.answer r (state, limit) with ⟨answered, later, after⟩
      rw [hr] at h
      cases answered with
      | error e => contradiction
      | ok =>
          rw [answer_limited hr]
          exact ih h

end Monitor

/-- An expansion that has a result under a monitor and a limit has the same result under the limit
alone. -/
theorem Expression.normalFormUnder_limited {monitor : Monitor σ} {state : σ}
    {final : σ × Option Budget} {limit : Option Budget} {form : NormalForm} {e result : Expression}
    (h : e.normalFormUnder monitor.limited (state, limit) form = .ok (.ok result, final)) :
    ∃ last, e.normalFormUnder Monitor.silent.limited ((), limit) form = .ok (.ok result, last) := by
  obtain ⟨begun, hbegun, -⟩ := except_bind_eq_ok h
  rw [normalFormUnder_of_start form e hbegun, Except.ok.injEq, Prod.mk.injEq] at h
  obtain ⟨started, -, hstart⟩ := except_bind_eq_ok hbegun
  obtain rfl : (started, limit.map Budget.reset) = begun := Except.ok.inj hstart
  obtain ⟨hresult, -⟩ := h
  have hheard : (monitor.limited.hear (e.reports form) (started, limit.map Budget.reset)).1 =
      .ok () := by
    cases hout : (monitor.limited.hear (e.reports form) (started, limit.map Budget.reset)).1 with
    | error error =>
        rw [hout] at hresult
        contradiction
    | ok => rfl
  have hsilent : Monitor.silent.limited.start ((), limit) = .ok ((), limit.map Budget.reset) := rfl
  rw [hheard] at hresult
  rw [normalFormUnder_of_start form e hsilent, Monitor.hear_limited hheard, hresult]
  exact ⟨_, rfl⟩

theorem run_nnfJob (job : NnfJob) (monitor : Monitor σ) (state : σ) :
    Job.run job monitor state = (monitor.start state).map fun started =>
      (if (monitor.poll started).1 then .error .canceled else .ok job.subject.nnf,
        (monitor.poll started).2) := by
  change (monitor.start state >>= _) = _
  cases monitor.start state <;> rfl

theorem run_normalFormJob (job : NormalFormJob) (monitor : Monitor σ) (state : σ) :
    Job.run job monitor state =
      (job.subject.normalFormUnder monitor.limited (state, jobBudget job.limit) job.form).map
        fun ending => (ending.1.mapError .ofExpansion, ending.2.1) := by
  change (job.subject.normalFormUnder _ _ _ >>= _) = _
  cases job.subject.normalFormUnder monitor.limited (state, jobBudget job.limit) job.form <;> rfl

theorem run_encodingJob (job : EncodingJob) (monitor : Monitor σ) (state : σ) :
    Job.run job monitor state =
      (job.subject.normalFormUnder monitor.limited (state, jobBudget job.limit) job.form).map
        fun ending => (Encoding.ofExpansion job.form job.subject ending.1, ending.2.1) := by
  change ((job.subject.normalFormUnder _ _ _ >>= _) >>= _) = _
  cases job.subject.normalFormUnder monitor.limited (state, jobBudget job.limit) job.form <;> rfl

theorem steady_nnfJob : Steady NnfJob := by
  intro σ job monitor state final result h
  rw [run_nnfJob] at h
  obtain ⟨started, -, hpolled⟩ := map_eq_ok h
  rw [Job.Gives, run_nnfJob]
  obtain ⟨hanswered, -⟩ := Prod.mk.inj hpolled
  cases hpoll : (monitor.poll started).1 with
  | true =>
      rw [hpoll] at hanswered
      contradiction
  | false =>
      rw [hpoll] at hanswered
      exact congrArg (fun outcome => Except.ok (outcome, ())) hanswered

theorem steady_normalFormJob : Steady NormalFormJob := by
  intro σ job monitor state final result h
  rw [run_normalFormJob] at h
  obtain ⟨⟨outcome, ending⟩, hexpand, hending⟩ := map_eq_ok h
  obtain ⟨houtcome, -⟩ := Prod.mk.inj hending
  cases outcome with
  | error e => contradiction
  | ok normal =>
      obtain ⟨last, halone⟩ := Expression.normalFormUnder_limited hexpand
      rw [Job.Gives, run_normalFormJob, halone, ← houtcome]
      rfl

theorem steady_encodingJob : Steady EncodingJob := by
  intro σ job monitor state final result h
  rw [run_encodingJob] at h
  obtain ⟨⟨outcome, ending⟩, hexpand, hending⟩ := map_eq_ok h
  obtain ⟨houtcome, -⟩ := Prod.mk.inj hending
  cases outcome with
  | error e => contradiction
  | ok normal =>
      obtain ⟨last, halone⟩ := Expression.normalFormUnder_limited hexpand
      rw [Job.Gives, run_encodingJob, halone, ← houtcome]
      rfl

end ClauseForm
