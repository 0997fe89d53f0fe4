import ClauseForm.Supervision
import Mathlib.Data.List.Basic

/-!
The answers of a monitor to polls in a row.

A computation under a monitor goes on until a poll is answered with yes, so all that matters about a
row of polls is `firstYes?`, the place of the first such answer.
-/

namespace ClauseForm

namespace Monitor

variable {σ : Type} {monitor : Monitor σ} {state started next : σ} {n k : Nat}

/-- The state after a number of polls. -/
def after (monitor : Monitor σ) : Nat → σ → σ
  | 0, state => state
  | k + 1, state => monitor.after k (monitor.poll state).2

/-- The answer to a poll, with the number of polls before it. -/
def answer (monitor : Monitor σ) (k : Nat) (state : σ) : Bool :=
  (monitor.poll (monitor.after k state)).1

/-- No poll from a state on is answered with yes. -/
def Quiet (monitor : Monitor σ) (state : σ) : Prop :=
  ∀ k, (monitor.poll (monitor.after k state)).1 = false

/-- From a state on, the first poll that is answered with yes has a number of polls before it. -/
def StopsAfter (monitor : Monitor σ) (polls : Nat) (state : σ) : Prop :=
  (∀ j < polls, monitor.answer j state = false) ∧ monitor.answer polls state = true

/-- The place of the first answer yes to so many polls. -/
def firstYes? (monitor : Monitor σ) (n : Nat) (state : σ) : Option Nat :=
  (List.range n).find? fun k => monitor.answer k state

/-- A monitor that decides like another one, and counts the polls since the start. -/
def counting (monitor : Monitor σ) : Monitor (σ × Nat) where
  start := fun (state, _) => do return (← monitor.start state, 0)
  poll := fun (state, polls) => ((monitor.poll state).1, (monitor.poll state).2, polls + 1)

theorem firstYes?_zero (monitor : Monitor σ) (state : σ) : monitor.firstYes? 0 state = none := rfl

theorem firstYes?_succ_of_yes (hpoll : monitor.poll state = (true, next)) (n : Nat) :
    monitor.firstYes? (n + 1) state = some 0 := by
  have hanswer : monitor.answer 0 state = true := by rw [answer, after, hpoll]
  rw [firstYes?, List.range_succ_eq_map, List.find?_cons, hanswer]

theorem firstYes?_succ_of_no (hpoll : monitor.poll state = (false, next)) (n : Nat) :
    monitor.firstYes? (n + 1) state = (monitor.firstYes? n next).map Nat.succ := by
  have hanswer : monitor.answer 0 state = false := by rw [answer, after, hpoll]
  have hlater : (fun k => monitor.answer k state) ∘ Nat.succ = fun k => monitor.answer k next := by
    funext k
    simp only [Function.comp, answer, after, hpoll]
  rw [firstYes?, List.range_succ_eq_map, List.find?_cons, hanswer, List.find?_map, hlater,
    firstYes?]

theorem firstYes?_eq_none_iff :
    monitor.firstYes? n state = none ↔ ∀ j < n, monitor.answer j state = false := by
  simp [firstYes?]

theorem firstYes?_eq_some_iff :
    monitor.firstYes? n state = some k ↔ k < n ∧ monitor.StopsAfter k state := by
  rw [firstYes?, List.find?_range_eq_some, StopsAfter]
  simp only [List.mem_range, Bool.not_eq_true']
  tauto

theorem Quiet.firstYes?_eq_none (h : monitor.Quiet state) (n : Nat) :
    monitor.firstYes? n state = none :=
  firstYes?_eq_none_iff.mpr fun j _ => h j

/-- There is only one first answer yes. -/
theorem StopsAfter.unique (hk : monitor.StopsAfter k state) (hn : monitor.StopsAfter n state) :
    k = n := by
  rcases Nat.lt_trichotomy k n with hless | hequal | hgreater
  · exact absurd (hn.1 k hless) (by simp [hk.2])
  · exact hequal
  · exact absurd (hk.1 n hgreater) (by simp [hn.2])

/-- A yes among some answers excludes that all of them are no. -/
theorem not_exists_yes (hquiet : ∀ j < n, monitor.answer j state = false) :
    ¬ ∃ j < n, monitor.answer j state = true := by
  rintro ⟨j, hj, hyes⟩
  simp [hquiet j hj] at hyes

theorem StopsAfter.exists_yes (h : monitor.StopsAfter k state) :
    ∃ j < k + 1, monitor.answer j state = true :=
  ⟨k, Nat.lt_succ_self k, h.2⟩

theorem start_counting (hstart : monitor.start state = .ok started) (past : Nat) :
    monitor.counting.start (state, past) = .ok (started, 0) := by
  change (do return (← monitor.start state, 0)) = _
  rw [hstart]
  rfl

theorem after_counting (monitor : Monitor σ) (k : Nat) (state : σ) (polls : Nat) :
    monitor.counting.after k (state, polls) = (monitor.after k state, polls + k) := by
  induction k generalizing state polls with
  | zero => rfl
  | succ k ih =>
      rw [after, after, Nat.add_comm k 1, ← Nat.add_assoc]
      exact ih (monitor.poll state).2 (polls + 1)

theorem firstYes?_counting (monitor : Monitor σ) (n : Nat) (state : σ) (polls : Nat) :
    monitor.counting.firstYes? n (state, polls) = monitor.firstYes? n state := by
  have hanswer : (fun k => monitor.counting.answer k (state, polls)) =
      fun k => monitor.answer k state := by
    funext k
    rw [answer, after_counting]
    rfl
  rw [firstYes?, hanswer, firstYes?]

end Monitor

end ClauseForm
