import ClauseForm.Supervision
import Mathlib.Data.List.Basic

/-!
What a computation reports, apart from who listens.

A computation is scripted if under an observer in any monad it makes the same reports and then has
the same result.  Scripts compose along `bind` and along folds, so the script of a computation is
read off its parts once, and every observer gets what the script says.
-/

namespace ClauseForm

/-- One report of a computation to its observer. -/
inductive Report where
  | checkpoint
  | distribution
  | clause (literals : Nat)
deriving DecidableEq

/-- The number of literals that a report tells of. -/
def Report.literals : Report → Nat
  | clause n => n
  | checkpoint | distribution => 0

/-- Decides whether a report tells of a new clause. -/
def Report.isClause : Report → Bool
  | clause _ => true
  | checkpoint | distribution => false

/-- The number of literals that some reports tell of, all together. -/
def literalsReported : List Report → Nat
  | [] => 0
  | r :: reports => r.literals + literalsReported reports

@[simp]
theorem literalsReported_cons (r : Report) (reports : List Report) :
    literalsReported (r :: reports) = r.literals + literalsReported reports := rfl

@[simp]
theorem literalsReported_append (first second : List Report) :
    literalsReported (first ++ second) = literalsReported first + literalsReported second := by
  induction first with
  | nil => exact (Nat.zero_add _).symm
  | cons r first ih => rw [List.cons_append, literalsReported_cons, ih, literalsReported_cons,
      Nat.add_assoc]

/-- The reports of a fold, whose steps make reports of their own. -/
def foldReports {α β : Type} (reports : β → α → List Report) (step : β → α → β) :
    List α → β → List Report
  | [], _ => []
  | a :: as, b => reports b a ++ foldReports reports step as (step b a)

/-- The reports of a fold over some items come before those over the items behind them. -/
theorem foldReports_append {α β : Type} (reports : β → α → List Report) (step : β → α → β)
    (as bs : List α) (b : β) :
    foldReports reports step (as ++ bs) b =
      foldReports reports step as b ++ foldReports reports step bs (as.foldl step b) := by
  induction as generalizing b with
  | nil => rfl
  | cons a as ih => rw [List.cons_append, foldReports, ih, ← List.append_assoc, List.foldl_cons,
      foldReports]

/-- A fold makes only reports that one of its steps can make. -/
theorem not_mem_foldReports {α β : Type} {r : Report} {reports : β → α → List Report}
    {step : β → α → β} (hreports : ∀ b a, r ∉ reports b a) (as : List α) (b : β) :
    r ∉ foldReports reports step as b := by
  induction as generalizing b with
  | nil => exact List.not_mem_nil
  | cons a as ih =>
      rw [foldReports, List.mem_append, not_or]
      exact ⟨hreports b a, ih (step b a)⟩

namespace Observer

section Scripts

variable {m : Type → Type} [Monad m]

/-- Makes one report to an observer. -/
def tell (o : Observer m) : Report → m Unit
  | .checkpoint => o.checkpoint
  | .distribution => o.distribution
  | .clause n => o.clause n

/-- Makes some reports to an observer, one after the other. -/
def tellAll (o : Observer m) (reports : List Report) : m Unit := forM reports o.tell

/-- A computation does nothing but make some reports and return a result. -/
def Scripted {α : Type} (o : Observer m) (x : m α) (reports : List Report) (a : α) : Prop :=
  x = do
    o.tellAll reports
    pure a

namespace Scripted

variable [LawfulMonad m] {o : Observer m} {α β : Type} {a : α} {b : β} {x : m α}
  {reports more : List Report}

theorem pure (a : α) : o.Scripted (Pure.pure a) [] a := by
  simp [Scripted, tellAll]

theorem tell (r : Report) : o.Scripted (o.tell r) [r] () := by
  simp [Scripted, tellAll]

theorem bind {f : α → m β} (hx : o.Scripted x reports a) (hf : o.Scripted (f a) more b) :
    o.Scripted (x >>= f) (reports ++ more) b := by
  rw [Scripted] at hx hf ⊢
  rw [hx, bind_assoc, tellAll, tellAll, List.forM_append, bind_assoc]
  congr 1
  funext _
  rw [pure_bind, hf]
  rfl

theorem map (f : α → β) (hx : o.Scripted x reports a) : o.Scripted (f <$> x) reports (f a) := by
  rw [map_eq_pure_bind, ← List.append_nil reports]
  exact hx.bind (.pure _)

/-- The script of a fold is that of its steps. -/
theorem foldlM {f : β → α → m β} {script : β → α → List Report} {step : β → α → β}
    (hstep : ∀ b a, o.Scripted (f b a) (script b a) (step b a)) (as : List α) (b : β) :
    o.Scripted (as.foldlM f b) (foldReports script step as b) (as.foldl step b) := by
  induction as generalizing b with
  | nil => exact .pure b
  | cons a as ih =>
      rw [List.foldlM_cons]
      exact (hstep b a).bind (ih (step b a))

section States

variable {σ : Type} {s t u : σ}

/-- A step that carries a state along makes the reports that it makes without it. -/
theorem lift (hx : o.Scripted x reports a) (s : σ) :
    o.Scripted ((liftM x : StateT σ m α).run s) reports (a, s) := by
  simpa [liftM, monadLift, MonadLift.monadLift] using hx.map fun a => (a, s)

theorem bindState {x : StateT σ m α} {f : α → StateT σ m β}
    (hx : o.Scripted (x.run s) reports (a, t)) (hf : o.Scripted ((f a).run t) more (b, u)) :
    o.Scripted ((x >>= f).run s) (reports ++ more) (b, u) := by
  rw [StateT.run_bind]
  exact hx.bind hf

end States

end Scripted

/-- An observer that does nothing makes nothing of reports. -/
theorem tellAll_silent [LawfulMonad m] (reports : List Report) :
    (silent : Observer m).tellAll reports = Pure.pure () := by
  induction reports with
  | nil => rfl
  | cons r reports ih =>
      have hr : (silent : Observer m).tell r = Pure.pure () := by cases r <;> rfl
      rw [tellAll, List.forM_cons, hr, pure_bind]
      exact ih

/-- Without an observer only the result of a script is left. -/
theorem Scripted.eq_pure [LawfulMonad m] {α : Type} {x : m α} {reports : List Report} {a : α}
    (hx : (silent : Observer m).Scripted x reports a) : x = Pure.pure a := by
  rw [hx, tellAll_silent, pure_bind]

end Scripts

end Observer

end ClauseForm
