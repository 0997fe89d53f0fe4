import ClauseForm.Proofs.CountingUp
import ClauseForm.Proofs.Monitors

/-!
What a search over all valuations finds.

A count visits all valuations, and a search ends at the first one that satisfies the clauses, unless
the monitor stops them before.  `count_eq` and `search_eq` say so for every monitor.
-/

namespace ClauseForm

namespace ModelSearch

variable {σ : Type} {s : ModelSearch} {monitor : Monitor σ} {state : σ} {assumptions : Assignment}

theorem range_le_iff {n : Nat} :
    s.range assumptions ≤ n ↔ s.maxIndex ≤ n ∧ ∀ l ∈ assumptions.toList, l.natAbs ≤ n := by
  rw [range, ← List.foldl_map (f := Int.natAbs) (g := max), Clauses.foldl_max_le_iff,
    List.forall_mem_map]

theorem assumed_le_range {l : Int} (hl : l ∈ assumptions.toList) :
    l.natAbs ≤ s.range assumptions :=
  (range_le_iff.mp (Nat.le_refl (s.range assumptions))).2 l hl

theorem assumed_lt {l : Int} (hl : l ∈ assumptions.toList) :
    l.natAbs < s.range assumptions + 1 :=
  Nat.lt_succ_of_le (assumed_le_range hl)

/-- The counter starts where all indices that are not assumed are false. -/
theorem clear_of_counter? {c : Counter} (h : s.counter? assumptions = some c) :
    ∀ index ∈ c.free, c.values.value index = false := by
  obtain ⟨t, ht, rfl⟩ := Option.map_eq_some_iff.mp h
  exact (Assumed.fits_empty _).clear_of_addAll? (fun l => assumed_lt) ht

/-- What a sweep does at each valuation. -/
def visitModel (s : ModelSearch) (monitor : Monitor σ)
    (visit : Valuation → ExceptT SweepEnd (StateM (σ × Nat)) Unit) (v : Valuation) :
    ExceptT SweepEnd (StateM (σ × Nat)) Unit := do
  let stop ← modifyGet fun (state, count) =>
    let (stop, state) := monitor.poll state
    (stop, state, count)
  if stop then throw .stopped
  if s.satisfiedBy v then visit v

/-- The valuations that a sweep visits if nothing ends it, in order: none if the assumptions
contradict each other. -/
def visited (s : ModelSearch) (assumptions : Assignment) : List Valuation :=
  match s.counter? assumptions with
  | none => []
  | some c => (List.range (2 ^ c.free.length)).map fun number => .numbered c.free number c.values

theorem sweepModels_eq (visit : Valuation → ExceptT SweepEnd (StateM (σ × Nat)) Unit) :
    s.sweepModels monitor assumptions visit =
      (s.visited assumptions).forM (s.visitModel monitor visit) := by
  rw [sweepModels, visited]
  cases hcounter : s.counter? assumptions with
  | none => rfl
  | some c =>
      change c.sweep (s.visitModel monitor visit) = _
      rw [Counter.sweep_eq_forM _ (clear_of_counter? hcounter)]
      exact (List.forM_map ..).symm

/-- Unless the monitor stops it, a step visits a valuation that satisfies the clauses. -/
theorem run_visitModel {stop : Bool} {next : σ} (hpoll : monitor.poll state = (stop, next))
    (visit : Valuation → ExceptT SweepEnd (StateM (σ × Nat)) Unit) (v : Valuation) (n : Nat) :
    (s.visitModel monitor visit v).run.run (state, n) =
      if stop then (.error .stopped, next, n)
      else (if s.satisfiedBy v then visit v else pure ()).run.run (next, n) := by
  change ((do
      if (monitor.poll state).1 then throw .stopped
      if s.satisfiedBy v then visit v :
    ExceptT SweepEnd (StateM (σ × Nat)) Unit).run).run ((monitor.poll state).2, n) = _
  rw [hpoll]
  cases stop <;> rfl

/-- A count goes through all valuations, or through those before the first answer yes. -/
theorem run_count (s : ModelSearch) (monitor : Monitor σ) (state : σ) (vs : List Valuation)
    (n : Nat) :
    (vs.forM (s.visitModel monitor fun _ =>
      modify fun (state, n) => (state, n + 1))).run.run (state, n) =
        match monitor.firstYes? vs.length state with
        | none => (.ok (), monitor.after vs.length state, n + vs.countP s.satisfiedBy)
        | some k =>
          (.error .stopped, monitor.after (k + 1) state, n + (vs.take k).countP s.satisfiedBy) := by
  induction vs generalizing state n with
  | nil => rfl
  | cons v vs ih =>
      rw [List.forM, ExceptT.run_bind, StateT.run_bind]
      rcases hpoll : monitor.poll state with ⟨_ | _, next⟩
      · rw [run_visitModel hpoll, List.length_cons, Monitor.firstYes?_succ_of_no hpoll]
        cases hv : s.satisfiedBy v with
        | true =>
            refine (ih next (n + 1)).trans ?_
            cases monitor.firstYes? vs.length next <;>
              simp [Monitor.after, hpoll, hv, Nat.add_assoc, Nat.add_comm 1]
        | false =>
            refine (ih next n).trans ?_
            cases monitor.firstYes? vs.length next <;> simp [Monitor.after, hpoll, hv]
      · rw [run_visitModel hpoll, List.length_cons, Monitor.firstYes?_succ_of_yes hpoll]
        simp only [Monitor.after, hpoll]
        rfl

/-- How many valuations a search goes through if it is not stopped: it ends with the first one that
satisfies the clauses. -/
def searchLength (s : ModelSearch) (vs : List Valuation) : Nat :=
  min (vs.findIdx s.satisfiedBy + 1) vs.length

theorem searchLength_cons (s : ModelSearch) (v : Valuation) (vs : List Valuation) :
    s.searchLength (v :: vs) = (if s.satisfiedBy v then 0 else s.searchLength vs) + 1 := by
  simp only [searchLength, List.findIdx_cons, List.length_cons]
  cases s.satisfiedBy v with
  | true => simp
  | false => simp

/-- A search ends at the first valuation that satisfies the clauses, or at the first answer yes. -/
theorem run_search (s : ModelSearch) (monitor : Monitor σ) (state : σ) (vs : List Valuation)
    (n : Nat) :
    (vs.forM (s.visitModel monitor fun v => throw (.found v))).run.run (state, n) =
      match monitor.firstYes? (s.searchLength vs) state with
      | none =>
        (match vs.find? s.satisfiedBy with | none => .ok () | some v => .error (.found v),
          monitor.after (s.searchLength vs) state, n)
      | some k => (.error .stopped, monitor.after (k + 1) state, n) := by
  induction vs generalizing state with
  | nil => rfl
  | cons v vs ih =>
      rw [List.forM, ExceptT.run_bind, StateT.run_bind, searchLength_cons]
      rcases hpoll : monitor.poll state with ⟨_ | _, next⟩
      · rw [run_visitModel hpoll, Monitor.firstYes?_succ_of_no hpoll, List.find?_cons]
        cases hv : s.satisfiedBy v with
        | true =>
            simp only [if_true, Monitor.firstYes?_zero, Option.map_none, Monitor.after, hpoll]
            rfl
        | false =>
            refine (ih next).trans ?_
            simp only [Bool.false_eq_true, if_false]
            cases monitor.firstYes? (s.searchLength vs) next <;> simp [Monitor.after, hpoll]
      · rw [run_visitModel hpoll, Monitor.firstYes?_succ_of_yes hpoll]
        simp only [Monitor.after, hpoll]
        rfl

/-- What a count reports: the number of all valuations that satisfy the clauses, or of those before
the first answer yes. -/
theorem count_eq {started : σ} (s : ModelSearch) (assumptions : Assignment)
    (hstart : monitor.start state = .ok started) :
    s.count assumptions monitor state = .ok (
      match monitor.firstYes? (s.visited assumptions).length started with
      | none =>
        (.exact ((s.visited assumptions).countP s.satisfiedBy),
          monitor.after (s.visited assumptions).length started)
      | some k =>
        (.atLeast (((s.visited assumptions).take k).countP s.satisfiedBy),
          monitor.after (k + 1) started)) := by
  simp only [count, hstart, sweepModels_eq, bind, Except.bind, run_count, Nat.zero_add]
  cases monitor.firstYes? (s.visited assumptions).length started <;> rfl

/-- What a search reports: the first valuation that satisfies the clauses, unless the monitor stops
the search before. -/
theorem search_eq {started : σ} (s : ModelSearch) (assumptions : Assignment)
    (hstart : monitor.start state = .ok started) :
    s.search assumptions monitor state = .ok (
      match monitor.firstYes? (s.searchLength (s.visited assumptions)) started with
      | none =>
        (match (s.visited assumptions).find? s.satisfiedBy with
          | none => .unsatisfiable
          | some _ => .satisfiable,
          { s with
            solution := ((s.visited assumptions).find? s.satisfiedBy).map Valuation.toSolution },
          monitor.after (s.searchLength (s.visited assumptions)) started)
      | some k => (.undecided, { s with solution := none }, monitor.after (k + 1) started)) := by
  simp only [search, hstart, sweepModels_eq, bind, Except.bind, run_search]
  cases monitor.firstYes? (s.searchLength (s.visited assumptions)) started with
  | none => cases (s.visited assumptions).find? s.satisfiedBy <;> rfl
  | some k => rfl

/-- A count that is not stopped finds how many valuations satisfy the clauses. -/
theorem count_of_quiet {started : σ} (s : ModelSearch) (assumptions : Assignment)
    (hstart : monitor.start state = .ok started) (hquiet : monitor.Quiet started) :
    ∃ final, s.count assumptions monitor state =
      .ok (.exact ((s.visited assumptions).countP s.satisfiedBy), final) := by
  have hcount := count_eq s assumptions hstart
  rw [hquiet.firstYes?_eq_none] at hcount
  exact ⟨_, hcount⟩

/-- A search that is not stopped finds the first valuation that satisfies the clauses. -/
theorem search_of_quiet {started : σ} (s : ModelSearch) (assumptions : Assignment)
    (hstart : monitor.start state = .ok started) (hquiet : monitor.Quiet started) :
    ∃ final, s.search assumptions monitor state =
      .ok (match (s.visited assumptions).find? s.satisfiedBy with
        | none => (.unsatisfiable, { s with solution := none }, final)
        | some v => (.satisfiable, { s with solution := some v.toSolution }, final)) := by
  have hsearch := search_eq s assumptions hstart
  rw [hquiet.firstYes?_eq_none] at hsearch
  refine ⟨monitor.after (s.searchLength (s.visited assumptions)) started, hsearch.trans ?_⟩
  cases (s.visited assumptions).find? s.satisfiedBy <;> rfl

/-- Without assumptions a sweep goes through all valuations of the indices. -/
theorem visited_empty (s : ModelSearch) :
    s.visited .empty = (List.range (2 ^ s.maxIndex)).map (.ofNumber s.maxIndex) := by
  have hfree : (Assumed.empty (s.maxIndex + 1)).free = List.range' 1 s.maxIndex := by
    rw [Assumed.free, (Assumed.fits_empty _).size_values, Nat.add_sub_cancel]
    exact List.filter_eq_self.mpr fun index _ => by rw [Assumed.fixes_empty]; rfl
  change (List.range (2 ^ (Assumed.empty (s.maxIndex + 1)).free.length)).map
    (fun number => Valuation.numbered (Assumed.empty (s.maxIndex + 1)).free number _) = _
  rw [hfree, List.length_range']
  rfl

theorem satisfiedBy_eq (s : ModelSearch) (v : Valuation) :
    s.satisfiedBy v = NormalForm.reads .cnf v.satisfiesLiteral s.clauses := by
  have hclause : v.satisfies = fun c => c.toList.any v.satisfiesLiteral := by
    funext c
    simp [Valuation.satisfies, Literals.toList]
  rw [satisfiedBy, NormalForm.reads, hclause]

end ModelSearch

end ClauseForm
