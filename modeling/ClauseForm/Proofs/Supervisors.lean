import ClauseForm.Proofs.Reports
import ClauseForm.Supervision.Signals

/-!
Supervisors as the audience of a script.

Under a supervisor a scripted computation makes its reports until one of them is answered with an
error.  `hear_recording` says what the supervisor has heard by then: the whole script, or the script
as far as the first such answer, and nothing after it.
-/

namespace ClauseForm

namespace Supervisor

variable {σ : Type}

/-- What a supervisor answers to a report, and its state after that.  A poll that is answered with
yes means that the computation is canceled. -/
def answer (s : Supervisor σ) : Report → σ → Except ExpansionError Unit × σ
  | .checkpoint, state => (if (s.poll state).1 then .error .canceled else .ok (), (s.poll state).2)
  | .distribution, state => s.distribution state
  | .clause n, state => s.clause n state

/-- The state after some reports, whatever was answered to them. -/
def after (s : Supervisor σ) (reports : List Report) (state : σ) : σ :=
  reports.foldl (fun state r => (s.answer r state).2) state

/-- What a supervisor answers to some reports in turn. -/
def answers (s : Supervisor σ) : List Report → σ → List (Except ExpansionError Unit)
  | [], _ => []
  | r :: reports, state => (s.answer r state).1 :: s.answers reports (s.answer r state).2

/-- Makes reports until one of them is answered with an error. -/
def hear (s : Supervisor σ) : List Report → σ → Except ExpansionError Unit × σ
  | [], state => (.ok (), state)
  | r :: reports, state =>
    match s.answer r state with
    | (.ok (), next) => s.hear reports next
    | (.error e, next) => (.error e, next)

/-- A supervisor that decides like another one, and remembers all reports since the start. -/
def recording (s : Supervisor σ) : Supervisor (σ × List Report) where
  start := fun (state, _) => do return (← s.start state, [])
  poll := fun (state, heard) =>
    ((s.poll state).1, (s.poll state).2, heard ++ [.checkpoint])
  distribution := fun (state, heard) =>
    ((s.distribution state).1, (s.distribution state).2, heard ++ [.distribution])
  clause := fun n (state, heard) =>
    ((s.clause n state).1, (s.clause n state).2, heard ++ [.clause n])

/-- What a supervisor hears of a script: all of it if every report is answered well, or else what
comes before the first report that is not, and that report. -/
inductive Hears (s : Supervisor σ) (state : σ) (script : List Report) :
    List Report → Except ExpansionError Unit → Prop where
  | all : s.answers script state = List.replicate script.length (.ok ()) →
      Hears s state script script (.ok ())
  | cut (before rest : List Report) {r : Report} {error : ExpansionError} :
      script = before ++ r :: rest →
      s.answers (before ++ [r]) state = List.replicate before.length (.ok ()) ++ [.error error] →
      Hears s state script (before ++ [r]) (.error error)

variable {s : Supervisor σ} {state later started : σ} {r : Report} {script heard : List Report}
  {outcome : Except ExpansionError Unit}

theorem after_cons (hr : s.answer r state = (outcome, later)) :
    s.after (r :: heard) state = s.after heard later := by
  rw [after, List.foldl_cons, hr]
  rfl

theorem start_recording (hstart : s.start state = .ok started) (past : List Report) :
    s.recording.start (state, past) = .ok (started, []) := by
  change (do return (← s.start state, [])) = _
  rw [hstart]
  rfl

theorem answer_recording (s : Supervisor σ) (r : Report) (state : σ) (heard : List Report) :
    s.recording.answer r (state, heard) =
      ((s.answer r state).1, (s.answer r state).2, heard ++ [r]) := by
  cases r <;> rfl

/-- A report that is answered well can be put in front of what is heard of a script. -/
theorem Hears.cons (hr : s.answer r state = (.ok (), later))
    (h : s.Hears later script heard outcome) :
    s.Hears state (r :: script) (r :: heard) outcome := by
  cases h with
  | all hanswers =>
      refine .all ?_
      rw [answers, hr, hanswers, List.length_cons, List.replicate_succ]
  | cut before rest hscript hanswers =>
      refine .cut (r :: before) rest (by rw [hscript]; rfl) ?_
      rw [List.cons_append, answers, hr, hanswers, List.length_cons, List.replicate_succ]
      rfl

/-- Whether a supervisor remembers what it hears makes no difference, and it remembers what it
hears of the script. -/
theorem hear_recording (s : Supervisor σ) (script : List Report) (state : σ)
    (past : List Report) :
    ∃ heard outcome, s.hear script state = (outcome, s.after heard state) ∧
      s.recording.hear script (state, past) = (outcome, s.after heard state, past ++ heard) ∧
      s.Hears state script heard outcome := by
  induction script generalizing state past with
  | nil => exact ⟨[], .ok (), rfl, by simp [hear, after], .all rfl⟩
  | cons r script ih =>
      rw [hear, hear, answer_recording]
      cases hr : s.answer r state with
      | mk answered later =>
          cases answered with
          | error error =>
              refine ⟨[r], .error error, by rw [after_cons hr]; rfl, by rw [after_cons hr]; rfl, ?_⟩
              exact .cut [] script rfl (by rw [List.nil_append, answers, hr]; rfl)
          | ok =>
              obtain ⟨heard, outcome, hplain, hrecorded, hhears⟩ := ih later (past ++ [r])
              refine ⟨r :: heard, outcome, ?_, ?_, hhears.cons hr⟩
              · rw [after_cons hr]
                exact hplain
              · rw [List.append_assoc] at hrecorded
                rw [after_cons hr]
                exact hrecorded

theorem run_modifyGet_bind {α β : Type} (f : σ → α × σ) (next : α → Supervised σ β) (state : σ) :
    (modifyGet f >>= next : Supervised σ β).run.run state =
      (next (f state).1).run.run (f state).2 := rfl

/-- One report under a supervisor is answered by it. -/
theorem run_tell (s : Supervisor σ) (r : Report) (state : σ) :
    (s.observer.tell r).run.run state = s.answer r state := by
  cases r with
  | checkpoint =>
      rw [Observer.tell, observer, run_modifyGet_bind, answer]
      cases (s.poll state).1 <;> rfl
  | distribution =>
      rw [Observer.tell, observer, run_modifyGet_bind, answer]
      rcases s.distribution state with ⟨⟨⟩ | ⟨⟩, later⟩ <;> rfl
  | clause n =>
      rw [Observer.tell, observer, run_modifyGet_bind, answer]
      rcases s.clause n state with ⟨⟨⟩ | ⟨⟩, later⟩ <;> rfl

theorem run_tellAll (s : Supervisor σ) (script : List Report) (state : σ) :
    (s.observer.tellAll script).run.run state = s.hear script state := by
  induction script generalizing state with
  | nil => rfl
  | cons r script ih =>
      rw [Observer.tellAll, List.forM_cons, ExceptT.run_bind, StateT.run_bind, run_tell, hear]
      rcases s.answer r state with ⟨⟨⟩ | ⟨⟩, later⟩
      · rfl
      · exact ih later

/-- A scripted computation under a supervisor has its result unless the script is cut. -/
theorem run_of_scripted {α : Type} {x : Supervised σ α} {a : α}
    (h : s.observer.Scripted x script a) (state : σ) :
    x.run.run state = ((s.hear script state).1.map fun _ => a, (s.hear script state).2) := by
  rw [h, ← run_tellAll, ExceptT.run_bind, StateT.run_bind]
  rcases (s.observer.tellAll script).run.run state with ⟨⟨⟩ | ⟨⟩, final⟩ <;> rfl

/-- Where a supervisor does not start, nothing is computed. -/
theorem supervise_of_breakdown {α : Type} {breakdown : Breakdown}
    (hstart : s.start state = .error breakdown)
    (computation : Observer (Supervised σ) → Supervised σ α) :
    s.supervise state computation = .error breakdown := by
  rw [supervise, hstart]
  rfl

theorem supervise_of_scripted {α : Type} {computation : Observer (Supervised σ) → Supervised σ α}
    {a : α} (hstart : s.start state = .ok started)
    (h : s.observer.Scripted (computation s.observer) script a) :
    s.supervise state computation =
      .ok ((s.hear script started).1.map fun _ => a, (s.hear script started).2) := by
  rw [supervise, hstart, ← run_of_scripted h]
  rfl

/-- From a state on, a supervisor answers every report well. -/
def NeverStops (s : Supervisor σ) (state : σ) : Prop :=
  ∀ (heard : List Report) (r : Report), (s.answer r (s.after heard state)).1 = .ok ()

theorem NeverStops.hear_eq (h : s.NeverStops state) (script : List Report) :
    s.hear script state = (.ok (), s.after script state) := by
  induction script generalizing state with
  | nil => rfl
  | cons r script ih =>
      rcases hr : s.answer r state with ⟨answered, later⟩
      have hanswer : (s.answer r state).1 = .ok () := h [] r
      rw [hr] at hanswer
      subst hanswer
      have hlater : s.NeverStops later := by
        intro heard r'
        rw [← after_cons hr]
        exact h (r :: heard) r'
      rw [hear, hr, after_cons hr]
      exact ih hlater

/-- From a state on, a supervisor cancels at every poll after a number of them, and stops nothing
before that or in any other way. -/
def AbortsAfter (s : Supervisor σ) (polls : Nat) (state : σ) : Prop :=
  ∀ (heard : List Report) (r : Report),
    (s.answer r (s.after heard state)).1 =
      if r = .checkpoint ∧ polls ≤ heard.count .checkpoint then .error .canceled else .ok ()

theorem AbortsAfter.next {polls : Nat} (h : s.AbortsAfter polls state)
    (hr : s.answer r state = (outcome, later)) :
    s.AbortsAfter (polls - [r].count .checkpoint) later := by
  intro heard r'
  rw [← after_cons hr, h (r :: heard) r', ← List.singleton_append, List.count_append]
  simp only [Nat.sub_le_iff_le_add']

theorem AbortsAfter.answer_fst {polls : Nat} (h : s.AbortsAfter polls state) (r : Report) :
    (s.answer r state).1 =
      if r = .checkpoint ∧ polls = 0 then .error .canceled else .ok () := by
  simpa [after] using h [] r

/-- A supervisor that aborts after a number of polls cancels exactly the scripts with more polls
than that. -/
theorem AbortsAfter.hear_fst {polls : Nat} (h : s.AbortsAfter polls state)
    (script : List Report) :
    (s.hear script state).1 =
      if polls < script.count .checkpoint then .error .canceled else .ok () := by
  induction script generalizing polls state with
  | nil => rfl
  | cons r script ih =>
      have hanswer := h.answer_fst r
      rcases hr : s.answer r state with ⟨answered, later⟩
      rw [hr] at hanswer
      rw [hear, hr]
      by_cases hstop : r = .checkpoint ∧ polls = 0
      · rw [if_pos hstop] at hanswer
        subst hanswer
        obtain ⟨rfl, rfl⟩ := hstop
        simp
      · rw [if_neg hstop] at hanswer
        subst hanswer
        have hcount : polls - [r].count .checkpoint < script.count .checkpoint ↔
            polls < (r :: script).count .checkpoint := by
          cases r with
          | checkpoint =>
              have hpolls : polls ≠ 0 := fun hzero => hstop ⟨rfl, hzero⟩
              rw [List.count_singleton_self, List.count_cons_self]
              omega
          | distribution | clause => simp
        simp only [ih (h.next hr), hcount]

end Supervisor

namespace Tally

/-- A tally has counted what it has heard. -/
theorem after_supervisor (heard : List Report) (t : Tally) :
    supervisor.after heard t = { t with
      polls := t.polls + heard.count .checkpoint
      distributions := t.distributions + heard.count .distribution
      clauses := t.clauses + heard.countP Report.isClause
      literals := t.literals + literalsReported heard } := by
  induction heard generalizing t with
  | nil => rfl
  | cons r heard ih =>
      rw [Supervisor.after_cons rfl, ih]
      cases r <;> simp [supervisor, List.countP_cons, Report.isClause, Report.literals] <;> omega

/-- A tally cancels once there were more polls than it has patience for. -/
theorem abortsAfter {t : Tally} {patience : Nat} (ht : t.patience = some (t.polls + patience)) :
    supervisor.AbortsAfter patience t := by
  intro heard r
  rw [after_supervisor]
  cases r with
  | checkpoint =>
      have hpolls : t.polls + patience < t.polls + heard.count .checkpoint + 1 ↔
          patience ≤ heard.count .checkpoint := by omega
      simp only [Supervisor.answer, supervisor, ht, Option.any_some, decide_eq_true_eq, hpolls,
        true_and]
  | distribution | clause => rfl

/-- A tally without a limit to its patience stops nothing. -/
theorem neverStops {t : Tally} (ht : t.patience = none) : supervisor.NeverStops t := by
  intro heard r
  rw [after_supervisor]
  cases r with
  | checkpoint => simp [Supervisor.answer, supervisor, ht]
  | distribution | clause => rfl

end Tally

end ClauseForm
