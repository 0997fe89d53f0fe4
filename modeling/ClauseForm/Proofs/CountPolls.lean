import ClauseForm.Proofs.SearchHistory
import ClauseForm.Supervision.Signals

/-!
Counting solutions under a monitor.

A count polls its monitor once for each way to fill in the free indices.  `count_spec` says how many
polls that makes, and what the count reports when one of them is answered with yes.
-/

namespace ClauseForm

namespace ModelSearch

variable {σ : Type} {s : ModelSearch} {a : Assignment} {monitor : Monitor σ} {state started : σ}
  {calls : List Call}

/-- The number of solutions of some clauses that agree with some assumptions. -/
def solutionCount (clauses : List Clause) (a : Assignment) : Nat :=
  (solutions clauses a (reach clauses a)).card

/-- The number of indices that some assumptions leave free. -/
def freeCount (clauses : List Clause) (a : Assignment) : Nat :=
  reach clauses a - a.indices.card

/-- The number of solutions among the first truth values that are counted up. -/
def solutionsBefore (clauses : List Clause) (a : Assignment) (k : Nat) : Nat :=
  (List.range k).countP fun number =>
    NormalForm.cnf.reads (trueUnder (a.countedUp number)) clauses

/-- What a count reports for the answers of its monitor, and how many polls it makes. -/
inductive Counts (s : ModelSearch) (a : Assignment) (monitor : Monitor σ) (started : σ) :
    Count → Nat → Prop where
  | all : (∀ j < (s.visited a).length, monitor.answer j started = false) →
      Counts s a monitor started (.exact (solutionCount s.clauses a)) (s.visited a).length
  | stopped (k : Nat) : k < (s.visited a).length → monitor.StopsAfter k started →
      Counts s a monitor started (.atLeast (solutionsBefore s.clauses a k)) (k + 1)

theorem Valid.length_visited_eq (hs : s.Valid) (hindexed : a.Indexed) (hconsistent : a.Consistent) :
    (s.visited a).length = 2 ^ freeCount s.clauses a := by
  rw [length_visited hconsistent, Assignment.length_freeUpTo hindexed fun l => assumed_le_range,
    hs.range_eq]
  rfl

theorem Valid.solutionsBefore_le (hs : s.Valid) (hindexed : a.Indexed) (hconsistent : a.Consistent)
    {k : Nat} (hk : k ≤ 2 ^ freeCount s.clauses a) :
    solutionsBefore s.clauses a k ≤ solutionCount s.clauses a := by
  have hlength := hs.length_visited_eq hindexed hconsistent
  rw [length_visited hconsistent] at hlength
  rw [solutionsBefore, ← hs.countP_take_visited hconsistent (hlength ▸ hk), solutionCount,
    ← hs.range_eq, ← hs.countP_visited hindexed]
  exact (List.take_sublist k _).countP_le

/-- A count goes through all valuations, or it ends at the first answer yes. -/
theorem Valid.count_counts (hs : s.Valid) (hindexed : a.Indexed)
    (hstart : monitor.start state = .ok started) (past : Nat) :
    ∃ outcome polls, s.count a monitor state = .ok (outcome, monitor.after polls started) ∧
      s.count a monitor.counting (state, past) =
        .ok (outcome, monitor.after polls started, polls) ∧
      s.Counts a monitor started outcome polls := by
  rw [count_eq s a hstart, count_eq s a (Monitor.start_counting hstart past),
    Monitor.firstYes?_counting]
  simp only [Monitor.after_counting, Nat.zero_add]
  cases hyes : monitor.firstYes? (s.visited a).length started with
  | none =>
      have hquiet := Monitor.firstYes?_eq_none_iff.mp hyes
      refine ⟨_, _, rfl, rfl, ?_⟩
      rw [hs.countP_visited hindexed, hs.range_eq]
      exact .all hquiet
  | some k =>
      obtain ⟨hk, hstops⟩ := Monitor.firstYes?_eq_some_iff.mp hyes
      have hconsistent := consistent_of_lt_length hindexed hk
      refine ⟨_, _, rfl, rfl, ?_⟩
      rw [hs.countP_take_visited hconsistent (length_visited hconsistent ▸ Nat.le_of_lt hk)]
      exact .stopped k hk hstops

theorem solutionCount_of_contradictory {clauses : List Clause} (hindexed : a.Indexed)
    (hcontradictory : ¬ a.Consistent) : solutionCount clauses a = 0 := by
  rw [solutionCount, solutions_of_contradictory hindexed hcontradictory, Finset.card_empty]

theorem Counts.under_consistent {outcome : Count} {polls : Nat}
    (h : s.Counts a monitor started outcome polls) (hs : s.Valid) (hindexed : a.Indexed)
    (hconsistent : a.Consistent) :
    ((∀ j < polls, monitor.answer j started = false) → polls = 2 ^ freeCount s.clauses a) ∧
      ∀ k, monitor.StopsAfter k started →
        outcome =
          if k < 2 ^ freeCount s.clauses a then .atLeast (solutionsBefore s.clauses a k)
          else .exact (solutionCount s.clauses a) := by
  rw [← hs.length_visited_eq hindexed hconsistent]
  rcases h with hquiet | ⟨k, hk, hstops⟩
  · refine ⟨fun _ => rfl, fun k hstops => ?_⟩
    rw [if_neg]
    intro hk
    exact Monitor.not_exists_yes hquiet ⟨k, hk, hstops.2⟩
  · refine ⟨fun hquiet => absurd hstops.exists_yes (Monitor.not_exists_yes hquiet), ?_⟩
    intro n hn
    obtain rfl := hstops.unique hn
    rw [if_pos hk]

theorem Counts.under_contradictory {outcome : Count} {polls : Nat}
    (h : s.Counts a monitor started outcome polls) (hindexed : a.Indexed)
    (hcontradictory : ¬ a.Consistent) : outcome = .exact 0 ∧ polls = 0 := by
  rcases h with hquiet | ⟨k, hk, hstops⟩
  · rw [solutionCount_of_contradictory hindexed hcontradictory,
      visited_of_contradictory hindexed hcontradictory]
    exact ⟨rfl, rfl⟩
  · exact absurd (consistent_of_lt_length hindexed hk) hcontradictory

/-- What is counted before an answer yes is a lower bound. -/
theorem Counts.bound {outcome : Count} {polls : Nat}
    (h : s.Counts a monitor started outcome polls) (hs : s.Valid) (hindexed : a.Indexed) :
    ((∀ j < polls, monitor.answer j started = false) →
        outcome = .exact (solutionCount s.clauses a)) ∧
      ((∃ j < polls, monitor.answer j started = true) →
        ∃ c ≤ solutionCount s.clauses a, outcome = .atLeast c) := by
  rcases h with hquiet | ⟨k, hk, hstops⟩
  · exact ⟨fun _ => rfl, fun hyes => absurd hyes (Monitor.not_exists_yes hquiet)⟩
  · refine ⟨fun hquiet => absurd hstops.exists_yes (Monitor.not_exists_yes hquiet), fun _ => ?_⟩
    have hconsistent := consistent_of_lt_length hindexed hk
    rw [hs.length_visited_eq hindexed hconsistent] at hk
    exact ⟨_, hs.solutionsBefore_le hindexed hconsistent (Nat.le_of_lt hk), rfl⟩

/-- After any calls a count is the number of solutions if no poll is answered with yes, and a lower
bound of it otherwise.  Under consistent assumptions it polls once for each way to fill in the free
indices unless it is stopped, and then it reports the solutions before the one that was answered with
yes.  Under contradictory ones it does not poll at all. -/
theorem count_spec (hcalls : ∀ call ∈ calls, call.Indexed) (hindexed : a.Indexed)
    (hstart : monitor.start state = .ok started) (past : Nat) :
    ∃ outcome polls,
      (after calls).count a monitor state = .ok (outcome, monitor.after polls started) ∧
        (after calls).count a monitor.counting (state, past) =
          .ok (outcome, monitor.after polls started, polls) ∧
        ((∀ j < polls, monitor.answer j started = false) →
          outcome = .exact (solutionCount (added calls) a)) ∧
        ((∃ j < polls, monitor.answer j started = true) →
          ∃ c ≤ solutionCount (added calls) a, outcome = .atLeast c) ∧
        (a.Consistent →
          ((∀ j < polls, monitor.answer j started = false) →
            polls = 2 ^ freeCount (added calls) a) ∧
          ∀ k, monitor.StopsAfter k started →
            outcome =
              if k < 2 ^ freeCount (added calls) a then .atLeast (solutionsBefore (added calls) a k)
              else .exact (solutionCount (added calls) a)) ∧
        (¬ a.Consistent → outcome = .exact 0 ∧ polls = 0) := by
  obtain ⟨hvalid, hclauses⟩ := valid_after hcalls
  obtain ⟨outcome, polls, hcount, hcounting, hcounts⟩ := hvalid.count_counts hindexed hstart past
  obtain ⟨hexact, hbound⟩ := hcounts.bound hvalid hindexed
  rw [← hclauses]
  exact ⟨outcome, polls, hcount, hcounting, hexact, hbound,
    hcounts.under_consistent hvalid hindexed, hcounts.under_contradictory hindexed⟩

namespace CountPollsWitness

/-- One clause over two indices. -/
def sample : List Call := [.add ⟨[⟨#[1, 2]⟩]⟩]

/-- An assumption that leaves three of four indices free. -/
def assumed : Assignment := ⟨#[4]⟩

/-- A tally with patience for three polls, and what it is after its start. -/
def patient : Tally := .new (some 3)

def awake : Tally := { patient with starts := 1 }

theorem sample_indexed : ∀ call ∈ sample, call.Indexed := by
  simp [sample, Call.Indexed, Clauses.Indexed, Literals.toList]

theorem assumed_indexed : assumed.Indexed := by simp [assumed, Literals.Indexed, Literals.toList]

theorem assumed_consistent : assumed.Consistent := by
  simp [assumed, Assignment.Consistent, Literals.toList]

theorem patient_start : Tally.supervisor.start patient = .ok awake := rfl

theorem awake_stopsAfter : Tally.supervisor.StopsAfter 3 awake := by
  constructor <;> decide

/-- Of the first three valuations, those where only the first index is true and where only the second
one is satisfy the clause. -/
theorem count_spec_sample :
    ((∀ call ∈ sample, call.Indexed) ∧ assumed.Indexed ∧
      Tally.supervisor.start patient = .ok awake) ∧
      ∃ polls, (after sample).count assumed Tally.supervisor.toMonitor patient =
        .ok (.atLeast 2, Tally.supervisor.toMonitor.after polls awake) := by
  obtain ⟨outcome, polls, hcount, -, -, -, hconsistent, -⟩ :=
    count_spec sample_indexed assumed_indexed patient_start 0
  have hfree : freeCount (added sample) assumed = 3 := by decide +kernel
  have hbefore : solutionsBefore (added sample) assumed 3 = 2 := by decide +kernel
  have houtcome := (hconsistent assumed_consistent).2 3 awake_stopsAfter
  rw [hfree, hbefore] at houtcome
  obtain rfl : outcome = .atLeast 2 := houtcome
  exact ⟨⟨sample_indexed, assumed_indexed, patient_start⟩, polls, hcount⟩

end CountPollsWitness

end ModelSearch

end ClauseForm
