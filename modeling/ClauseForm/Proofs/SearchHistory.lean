import ClauseForm.Proofs.Assumptions

/-!
The history of a model search.

Clauses are added one list after another, and between that a search may be asked for solutions under
assumptions and monitors of all kinds.  `history_spec` says what its answers and the solution that it
keeps are worth after any such calls.
-/

namespace ClauseForm

/-- A solution for indices up to a number that satisfies some clauses and agrees with some
assumptions. -/
structure Solution.Solves (solution : Solution) (clauses : List Clause) (a : Assignment) (n : Nat) :
    Prop where
  indices : solution.toList.map Int.natAbs = List.range' 1 n
  clauses : ∀ c ∈ clauses, ∃ l ∈ c.toList, l ∈ solution.toList
  assumptions : ∀ l ∈ a.toList, l ∈ solution.toList

namespace ModelSearch

/-- What a model search may be asked for. -/
inductive Call : Type 1 where
  | add (l : Clauses)
  | search {σ : Type} (a : Assignment) (monitor : Monitor σ) (state : σ)
  | count {σ : Type} (a : Assignment) (monitor : Monitor σ) (state : σ)

namespace Call

/-- The clauses that a call adds. -/
def clauses : Call → List Clause
  | add l => l.toList
  | search _ _ _ | count _ _ _ => []

/-- All literals of a call have positive indices. -/
def Indexed : Call → Prop
  | add l => l.Indexed
  | search a _ _ | count a _ _ => a.Indexed

/-- A call that is no search and adds no clauses: a count, or a search whose monitor breaks down when
it is started. -/
def Idle : Call → Prop
  | add _ => False
  | search _ monitor state => ∃ breakdown, monitor.start state = .error breakdown
  | count _ _ _ => True

/-- A search under certain assumptions that is answered with satisfiable. -/
def Finds (s : ModelSearch) (a : Assignment) : Call → Prop
  | search b monitor state =>
    b = a ∧ ∃ found final, s.search a monitor state = .ok (.satisfiable, found, final)
  | add _ | count _ _ _ => False

end Call

/-- The model search after a call.  A count only reads it. -/
def perform (s : ModelSearch) : Call → ModelSearch
  | .add l => s.add l
  | .search a monitor state =>
    match s.search a monitor state with
    | .ok (_, found, _) => found
    | .error _ => s
  | .count _ _ _ => s

/-- The model search after some calls. -/
def after (calls : List Call) : ModelSearch := calls.foldl perform empty

/-- The clauses that some calls have added. -/
def added (calls : List Call) : List Clause := calls.flatMap Call.clauses

/-- The last search in some calls was one under certain assumptions, it was answered with
satisfiable, and no clauses have been added since. -/
def LastFound (calls : List Call) (a : Assignment) : Prop :=
  ∃ before call rest, calls = before ++ call :: rest ∧ call.Finds (after before) a ∧
    ∀ other ∈ rest, other.Idle

/-- What a search under a monitor that was started comes to: a verdict, a solution to keep and a
number of polls. -/
inductive Concludes {σ : Type} (s : ModelSearch) (a : Assignment) (monitor : Monitor σ)
    (started : σ) : Verdict → Option Solution → Nat → Prop where
  | found (solution : Solution) (polls : Nat) :
      (∀ j < polls, monitor.answer j started = false) →
      (solutions s.clauses a (s.range a)).Nonempty →
      solution.Solves s.clauses a (s.range a) →
      Concludes s a monitor started .satisfiable (some solution) polls
  | nothing (polls : Nat) :
      (∀ j < polls, monitor.answer j started = false) →
      solutions s.clauses a (s.range a) = ∅ →
      Concludes s a monitor started .unsatisfiable none polls
  | stopped (polls : Nat) :
      monitor.StopsAfter polls started →
      Concludes s a monitor started .undecided none (polls + 1)

variable {σ : Type} {s : ModelSearch} {a : Assignment} {monitor : Monitor σ} {state started : σ}
  {v : Valuation} {calls : List Call} {call : Call}

theorem exists_of_mem_visited (hindexed : a.Indexed) (hv : v ∈ s.visited a) :
    a.Consistent ∧ ∃ number, .numbered (a.freeUpTo (s.range a)) number (s.base a) = v := by
  have hconsistent : a.Consistent := consistent_of_lt_length hindexed (List.length_pos_of_mem hv)
  rw [visited_of_consistent hconsistent] at hv
  obtain ⟨number, -, hnumber⟩ := List.mem_map.mp hv
  exact ⟨hconsistent, number, hnumber⟩

/-- The solution of a valuation that a sweep visits. -/
theorem Valid.solves_toSolution (hs : s.Valid) (hindexed : a.Indexed) (hv : v ∈ s.visited a)
    (hsatisfied : s.satisfiedBy v = true) : v.toSolution.Solves s.clauses a (s.range a) := by
  obtain ⟨hconsistent, number, rfl⟩ := exists_of_mem_visited hindexed hv
  constructor
  · rw [Valuation.map_natAbs_toSolution, Valuation.size_numbered, size_base, Nat.add_sub_cancel]
  · intro c hc
    rw [satisfiedBy_eq, NormalForm.reads, List.all_eq_true] at hsatisfied
    obtain ⟨l, hl, htrue⟩ := List.any_eq_true.mp (hsatisfied c hc)
    refine ⟨l, hl, Valuation.mem_toSolution.mpr ⟨⟨hs.indexed c hc l hl, ?_⟩, htrue⟩⟩
    rw [Valuation.size_numbered, size_base]
    exact Nat.lt_succ_of_le (hs.natAbs_le_range hc hl)
  · intro l hl
    refine Valuation.mem_toSolution.mpr ⟨⟨hindexed l hl, ?_⟩, ?_⟩
    · rw [Valuation.size_numbered, size_base]
      exact Nat.lt_succ_of_le (assumed_le_range hl)
    · rw [trueUnder, value_numbered hconsistent (hindexed l hl) (assumed_le_range hl)]
      exact Assignment.trueUnder_countedUp hconsistent hl number

theorem Valid.search_concludes (hs : s.Valid) (hindexed : a.Indexed)
    (hstart : monitor.start state = .ok started) :
    ∃ verdict solution polls,
      s.search a monitor state =
          .ok (verdict, { s with solution := solution }, monitor.after polls started) ∧
        s.Concludes a monitor started verdict solution polls := by
  rw [search_eq s a hstart]
  cases hyes : monitor.firstYes? (s.searchLength (s.visited a)) started with
  | some k =>
      obtain ⟨-, hstops⟩ := Monitor.firstYes?_eq_some_iff.mp hyes
      exact ⟨_, _, _, rfl, .stopped k hstops⟩
  | none =>
      have hquiet := Monitor.firstYes?_eq_none_iff.mp hyes
      cases hfind : (s.visited a).find? s.satisfiedBy with
      | none =>
          refine ⟨_, _, _, rfl, .nothing _ hquiet ?_⟩
          rw [← Finset.card_eq_zero, ← hs.countP_visited hindexed, List.countP_eq_zero]
          exact List.find?_eq_none.mp hfind
      | some v =>
          have hmem := List.mem_of_find?_eq_some hfind
          have hsatisfied := List.find?_some hfind
          refine ⟨_, _, _, rfl, .found v.toSolution _ hquiet ?_
            (hs.solves_toSolution hindexed hmem hsatisfied)⟩
          rw [← Finset.card_pos, ← hs.countP_visited hindexed, List.countP_pos_iff]
          exact ⟨v, hmem, hsatisfied⟩

/-- A verdict is right about the solutions, unless a poll was answered with yes. -/
theorem Concludes.verdict_spec {verdict : Verdict} {solution : Option Solution} {polls : Nat}
    (h : s.Concludes a monitor started verdict solution polls) :
    (verdict = .satisfiable → (solutions s.clauses a (s.range a)).Nonempty) ∧
      (verdict = .unsatisfiable → solutions s.clauses a (s.range a) = ∅) ∧
      (verdict = .undecided ↔ ∃ j < polls, monitor.answer j started = true) := by
  rcases h with ⟨solution, polls, hquiet, hsome, -⟩ | ⟨polls, hquiet, hempty⟩ | ⟨polls, hstops⟩
  · exact ⟨fun _ => hsome, by simp, iff_of_false (by simp) (Monitor.not_exists_yes hquiet)⟩
  · exact ⟨by simp, fun _ => hempty, iff_of_false (by simp) (Monitor.not_exists_yes hquiet)⟩
  · exact ⟨by simp, by simp, iff_of_true rfl hstops.exists_yes⟩

theorem search_of_breakdown {breakdown : Breakdown} (hstart : monitor.start state = .error breakdown)
    (s : ModelSearch) (a : Assignment) : s.search a monitor state = .error breakdown := by
  rw [search, hstart]
  rfl

theorem after_concat (calls : List Call) (call : Call) :
    after (calls ++ [call]) = (after calls).perform call := by
  rw [after, List.foldl_append]
  rfl

theorem added_concat (calls : List Call) (call : Call) :
    added (calls ++ [call]) = added calls ++ call.clauses := by
  rw [added, List.flatMap_append, List.flatMap_singleton, added]

/-- A call changes the clauses only by adding some. -/
theorem Valid.perform (hs : s.Valid) (hcall : call.Indexed) :
    (s.perform call).Valid ∧ (s.perform call).clauses = s.clauses ++ call.clauses := by
  cases call with
  | add l => exact ⟨hs.add hcall, rfl⟩
  | search a monitor state =>
      have hsame : ∀ solution, { s with solution := solution : ModelSearch }.Valid :=
        fun _ => ⟨hs.indexed, hs.maxIndex_eq⟩
      rw [ModelSearch.perform, Call.clauses, List.append_nil]
      cases hstart : monitor.start state with
      | error breakdown =>
          rw [search_of_breakdown hstart]
          exact ⟨hs, rfl⟩
      | ok started =>
          obtain ⟨_, solution, _, hsearch, -⟩ := hs.search_concludes hcall hstart
          rw [hsearch]
          exact ⟨hsame solution, rfl⟩
  | count a monitor state => exact ⟨hs, (List.append_nil _).symm⟩

theorem valid_after (hcalls : ∀ call ∈ calls, call.Indexed) :
    (after calls).Valid ∧ (after calls).clauses = added calls := by
  induction calls using List.reverseRecOn with
  | nil => exact ⟨valid_empty, rfl⟩
  | append_singleton calls call ih =>
      obtain ⟨hbefore, hcall⟩ := List.forall_mem_append.mp hcalls
      obtain ⟨hvalid, hclauses⟩ := ih hbefore
      have hstep := hvalid.perform (hcall call List.mem_cons_self)
      rw [after_concat, added_concat, ← hclauses]
      exact hstep

/-- A search with satisfiable as its answer is the last one unless more calls than idle ones follow. -/
theorem lastFound_concat :
    LastFound (calls ++ [call]) a ↔
      call.Finds (after calls) a ∨ call.Idle ∧ LastFound calls a := by
  constructor
  · rintro ⟨before, found, rest, hsplit, hfound, hidle⟩
    rcases rest.eq_nil_or_concat with rfl | ⟨rest, last, rfl⟩
    · obtain ⟨rfl, hlast⟩ := List.append_inj' hsplit rfl
      obtain rfl := List.singleton_inj.mp hlast
      exact Or.inl hfound
    · rw [List.concat_eq_append] at hsplit hidle
      rw [← List.cons_append, ← List.append_assoc] at hsplit
      obtain ⟨rfl, hlast⟩ := List.append_inj' hsplit rfl
      obtain rfl := List.singleton_inj.mp hlast
      obtain ⟨hidle, hlast⟩ := List.forall_mem_append.mp hidle
      exact Or.inr ⟨hlast call List.mem_cons_self, before, found, rest, rfl, hfound, hidle⟩
  · rintro (hfound | ⟨hcall, before, found, rest, rfl, hfound, hidle⟩)
    · exact ⟨calls, call, [], rfl, hfound, by simp⟩
    · refine ⟨before, found, rest ++ [call], by simp, hfound, ?_⟩
      exact List.forall_mem_append.mpr ⟨hidle, by simpa using hcall⟩

/-- What a call does to the solution: a search that finds one keeps it, idle calls leave everything as
it is, and after all others there is none. -/
theorem Valid.solution_perform (hs : s.Valid) (hcall : call.Indexed) :
    (∀ a, call.Finds s a → ¬ call.Idle ∧ ∃ solution, (s.perform call).solution = some solution ∧
        solution.Solves (s.perform call).clauses a ((s.perform call).range a)) ∧
      (call.Idle → s.perform call = s) ∧
      (¬ call.Idle → (¬ ∃ a, call.Finds s a) → (s.perform call).solution = none) := by
  cases call with
  | add l => exact ⟨fun a => False.elim, False.elim, fun _ _ => rfl⟩
  | count a monitor state => exact ⟨fun a => False.elim, fun _ => rfl, fun h => absurd trivial h⟩
  | search b monitor state =>
      simp only [Call.Finds, Call.Idle, ModelSearch.perform]
      cases hstart : monitor.start state with
      | error breakdown =>
          simp [search_of_breakdown hstart]
      | ok started =>
          obtain ⟨verdict, solution, polls, hsearch, hconcludes⟩ :=
            hs.search_concludes hcall hstart
          refine ⟨?_, ?_, ?_⟩
          · rintro a ⟨rfl, found, final, hfound⟩
            rw [hsearch, Except.ok.injEq, Prod.mk.injEq] at hfound
            obtain ⟨rfl, -⟩ := hfound
            obtain ⟨solution, polls, -, -, hsolves⟩ := hconcludes
            rw [hsearch]
            refine ⟨?_, solution, rfl, hsolves⟩
            rintro ⟨_, hbroken⟩
            contradiction
          · rintro ⟨_, hbroken⟩
            contradiction
          · intro _ hnever
            rw [hsearch]
            rcases hconcludes with _ | _ | _
            · exact absurd ⟨b, rfl, _, _, hsearch⟩ hnever
            · rfl
            · rfl

theorem not_lastFound_nil : ¬ ∃ a, LastFound [] a := by
  rintro ⟨a, before, call, rest, hsplit, -⟩
  simp at hsplit

/-- The solution that is kept is the one that the last search has found. -/
theorem solution_after (hcalls : ∀ call ∈ calls, call.Indexed) :
    (∀ a, LastFound calls a → ∃ solution, (after calls).solution = some solution ∧
        solution.Solves (after calls).clauses a ((after calls).range a)) ∧
      ((¬ ∃ a, LastFound calls a) → (after calls).solution = none) := by
  induction calls using List.reverseRecOn with
  | nil => exact ⟨fun a ha => absurd ⟨a, ha⟩ not_lastFound_nil, fun _ => rfl⟩
  | append_singleton calls call ih =>
      obtain ⟨hbefore, hcall⟩ := List.forall_mem_append.mp hcalls
      have hindexed := hcall call List.mem_cons_self
      obtain ⟨hvalid, -⟩ := valid_after hbefore
      obtain ⟨hfinds, hidle, hcleared⟩ := hvalid.solution_perform hindexed
      obtain ⟨hkept, hnone⟩ := ih hbefore
      simp only [after_concat, lastFound_concat]
      by_cases hquiet : call.Idle
      · rw [hidle hquiet]
        refine ⟨?_, fun hnever => hnone fun ⟨a, ha⟩ => hnever ⟨a, Or.inr ⟨hquiet, ha⟩⟩⟩
        rintro a (ha | ⟨-, ha⟩)
        · exact absurd hquiet (hfinds a ha).1
        · exact hkept a ha
      · refine ⟨?_, fun hnever => hcleared hquiet fun ⟨a, ha⟩ => hnever ⟨a, Or.inl ha⟩⟩
        rintro a (ha | ⟨hcalm, -⟩)
        · exact (hfinds a ha).2
        · contradiction

/-- After any calls a search is answered with satisfiable only if there is a solution, with
unsatisfiable only if there is none, and with neither exactly if a poll was answered with yes.  A
solution is kept exactly if the last search has found one and no clauses were added since; it has one
literal for each index, satisfies all clauses and agrees with the assumptions of that search. -/
theorem history_spec (hcalls : ∀ call ∈ calls, call.Indexed) :
    (after calls).clauses = added calls ∧
      (∀ (σ : Type) (a : Assignment) (monitor : Monitor σ) (state started : σ), a.Indexed →
        monitor.start state = .ok started →
          ∃ verdict found polls,
            (after calls).search a monitor state =
                .ok (verdict, found, monitor.after polls started) ∧
              (verdict = .satisfiable →
                (solutions (added calls) a (reach (added calls) a)).Nonempty) ∧
              (verdict = .unsatisfiable →
                solutions (added calls) a (reach (added calls) a) = ∅) ∧
              (verdict = .undecided ↔ ∃ j < polls, monitor.answer j started = true)) ∧
      ((after calls).solution.isSome ↔ ∃ a, LastFound calls a) ∧
      (∀ a, LastFound calls a →
        ∃ solution, (after calls).solution = some solution ∧
          solution.Solves (added calls) a (reach (added calls) a)) ∧
      ∀ (σ : Type) (a : Assignment) (monitor : Monitor σ) (state : σ),
        (after calls).perform (.count a monitor state) = after calls := by
  obtain ⟨hvalid, hclauses⟩ := valid_after hcalls
  obtain ⟨hkept, hnone⟩ := solution_after hcalls
  simp only [hvalid.range_eq, hclauses] at hkept
  refine ⟨hclauses, ?_, ?_, hkept, fun _ _ _ _ => rfl⟩
  · intro σ a monitor state started hindexed hstart
    obtain ⟨verdict, solution, polls, hsearch, hconcludes⟩ :=
      hvalid.search_concludes hindexed hstart
    refine ⟨verdict, _, polls, hsearch, ?_⟩
    rw [← hclauses, ← hvalid.range_eq]
    exact hconcludes.verdict_spec
  · constructor
    · intro hsome
      by_contra hnever
      rw [hnone hnever] at hsome
      contradiction
    · rintro ⟨a, ha⟩
      obtain ⟨solution, hsolution, -⟩ := hkept a ha
      rw [hsolution]
      rfl

namespace SearchHistoryWitness

/-- A search under assumptions beyond the clauses, and a count after it. -/
def sample : List Call :=
  [.add ⟨[⟨#[1, 2]⟩]⟩, .search ⟨#[-1, 4]⟩ .silent (), .count .empty .silent ()]

theorem sample_indexed : ∀ call ∈ sample, call.Indexed := by
  simp [sample, Call.Indexed, Clauses.Indexed, Literals.Indexed, Literals.toList, Literals.empty]

theorem sample_lastFound : LastFound sample ⟨#[-1, 4]⟩ := by
  refine ⟨[_], _, [_], rfl, ⟨rfl, ?_⟩, by simp [Call.Idle]⟩
  have hverdict : ((after [.add ⟨[⟨#[1, 2]⟩]⟩]).search ⟨#[-1, 4]⟩ .silent ()).map Prod.fst =
      .ok .satisfiable := by
    decide +kernel
  rcases hsearch : (after [.add ⟨[⟨#[1, 2]⟩]⟩]).search ⟨#[-1, 4]⟩ .silent () with _ | ⟨verdict, rest⟩
  · rw [hsearch] at hverdict
    contradiction
  · rw [hsearch] at hverdict
    obtain rfl : verdict = .satisfiable := Except.ok.inj hverdict
    exact ⟨_, _, rfl⟩

theorem history_spec_sample :
    (∀ call ∈ sample, call.Indexed) ∧
      ∃ solution, (after sample).solution = some solution ∧
        solution.Solves [⟨#[1, 2]⟩] ⟨#[-1, 4]⟩ 4 := by
  obtain ⟨-, -, -, hkept, -⟩ := history_spec sample_indexed
  exact ⟨sample_indexed, hkept _ sample_lastFound⟩

end SearchHistoryWitness

end ModelSearch

end ClauseForm
