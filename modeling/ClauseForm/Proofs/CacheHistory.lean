import ClauseForm.Proofs.JobResults
import Mathlib.Data.Set.Card

/-!
Histories of a cache.

A cache is asked for results, which it finds out if need be, and cleared.  `history_transparent` says
that nobody can tell a result that was kept from one that is found out anew without a monitor, that
kept results cost no report to a monitor, and that the cache holds one result for each job that was
done since it was cleared.
-/

namespace ClauseForm

namespace Cache

variable {κ ρ σ : Type}

/-- A call to a cache. -/
inductive Call (κ : Type) : Type 1 where
  /-- Ask for the result of a job, which is done under a monitor in some state if need be. -/
  | ensure {σ : Type} (job : κ) (monitor : Monitor σ) (state : σ)
  | get (job : κ)
  | contains (job : κ)
  | clear

section Histories

variable [BEq κ] [Hashable κ] [Job κ ρ]

/-- The cache after a call.  A monitor that breaks down leaves it as it is. -/
def perform (cache : Cache κ ρ) : Call κ → Cache κ ρ
  | .ensure job monitor state =>
    match cache.ensure job monitor state with
    | .ok (_, grown) => grown
    | .error _ => cache
  | .get _ | .contains _ => cache
  | .clear => empty

/-- The cache after some calls to an empty one. -/
def after (calls : List (Call κ)) : Cache κ ρ := calls.foldl perform empty

/-- A call that asks a cache for the result of a certain job and gets one. -/
def Call.Ensures (cache : Cache κ ρ) (job : κ) : Call κ → Prop
  | .ensure wanted monitor state => wanted = job ∧ ∃ result final grown,
      cache.ensure wanted monitor state = .ok ((.ok result, final), grown)
  | _ => False

/-- A call asked for the result of a job and got it, and the cache was not cleared since. -/
def Ensured (calls : List (Call κ)) (job : κ) : Prop :=
  ∃ before call rest, calls = before ++ call :: rest ∧ call.Ensures (after before) job ∧
    ∀ later ∈ rest, later ≠ .clear

/-- What a cache promises after some calls. -/
structure Transparent (calls : List (Call κ)) : Prop where
  /-- The results that are handed out are those of the jobs themselves. -/
  ensure_gives : ∀ {σ : Type} (job : κ) (monitor : Monitor σ) (state final : σ) result grown,
    (after calls).ensure job monitor state = .ok ((.ok result, final), grown) →
      Job.Gives job result
  get?_gives : ∀ job result, (after calls).get? job = some result → Job.Gives job result
  /-- A monitor is neither started nor polled for a job whose result is kept. -/
  ensure_of_contains : ∀ job, (after calls).contains job = true → ∃ result,
    ∀ {σ : Type} (monitor : Monitor σ) (state : σ),
      (after calls).ensure job monitor state = .ok ((.ok result, state), after calls)
  /-- A failure is not kept. -/
  ensure_fails : ∀ {σ : Type} (job : κ) (monitor : Monitor σ) (state final : σ) error grown,
    (after calls).ensure job monitor state = .ok ((.error error, final), grown) →
      grown = after calls
  contains_iff : ∀ job, (after calls).contains job = true ↔ Ensured calls job
  size_eq : (after calls).size = {job | Ensured calls job}.ncard

variable {cache grown : Cache κ ρ} {calls : List (Call κ)} {call : Call κ} {job other : κ}
  {monitor : Monitor σ} {state final : σ} {result : ρ}

/-- A job whose result is kept is not done again. -/
theorem ensure_of_get? (h : cache.get? job = some result) (monitor : Monitor σ) (state : σ) :
    cache.ensure job monitor state = .ok ((.ok result, state), cache) := by
  rw [ensure, h]

/-- A job whose result is not kept is done, and its result is kept if there is one. -/
theorem ensure_of_get?_eq_none (h : cache.get? job = none) (monitor : Monitor σ) (state : σ) :
    cache.ensure job monitor state = (Job.run job monitor state).map fun ending =>
      (ending, match ending.1 with
        | .ok result => cache.keep job result
        | .error _ => cache) := by
  rw [ensure, h]
  rcases Job.run job monitor state with breakdown | ⟨⟨error⟩ | ⟨result⟩, final⟩ <;> rfl

/-- A result that is handed out was kept, or is found out and kept from now on. -/
theorem ensure_cases (h : cache.ensure job monitor state = .ok ((.ok result, final), grown)) :
    cache.get? job = some result ∧ grown = cache ∨
      cache.get? job = none ∧ Job.run job monitor state = .ok (.ok result, final) ∧
        grown = cache.keep job result := by
  cases hkept : cache.get? job with
  | some kept =>
      rw [ensure_of_get? hkept] at h
      cases h
      exact Or.inl ⟨rfl, rfl⟩
  | none =>
      rw [ensure_of_get?_eq_none hkept] at h
      obtain ⟨ending, hrun, hending⟩ := map_eq_ok h
      obtain ⟨rfl, rfl⟩ := Prod.mk.inj hending
      exact Or.inr ⟨rfl, hrun, rfl⟩

/-- Without a result the cache stays as it is. -/
theorem eq_of_ensure_eq_error {error : JobError}
    (h : cache.ensure job monitor state = .ok ((.error error, final), grown)) : grown = cache := by
  cases hkept : cache.get? job with
  | some kept =>
      rw [ensure_of_get? hkept] at h
      cases h
  | none =>
      rw [ensure_of_get?_eq_none hkept] at h
      obtain ⟨ending, -, hending⟩ := map_eq_ok h
      obtain ⟨rfl, rfl⟩ := Prod.mk.inj hending
      rfl

/-- What a call does: it ensures a result, or clears the cache, or leaves it as it is. -/
theorem perform_cases (cache : Cache κ ρ) (call : Call κ) :
    (∃ (σ : Type) (job : κ) (monitor : Monitor σ) (state final : σ) (result : ρ),
        cache.ensure job monitor state = .ok ((.ok result, final), cache.perform call) ∧
          call ≠ .clear ∧ ∀ other, call.Ensures cache other ↔ other = job) ∨
      (call = .clear ∧ cache.perform call = empty) ∨
      cache.perform call = cache ∧ call ≠ .clear ∧ ∀ other, ¬ call.Ensures cache other := by
  cases call with
  | @ensure σ job monitor state =>
      simp only [perform, Call.Ensures, ne_eq, reduceCtorEq, not_false_eq_true, true_and,
        false_and, false_or]
      rcases hensure : cache.ensure job monitor state with
        breakdown | ⟨⟨⟨error⟩ | ⟨result⟩, final⟩, grown⟩
      · exact Or.inr ⟨rfl, by simp⟩
      · exact Or.inr ⟨eq_of_ensure_eq_error hensure, by simp⟩
      · refine Or.inl ⟨σ, job, monitor, state, final, result, hensure, fun other => ?_⟩
        exact ⟨fun h => h.1.symm, fun h => ⟨h.symm, result, final, grown, rfl⟩⟩
  | get | contains => exact Or.inr (Or.inr ⟨rfl, by simp, fun _ => id⟩)
  | clear => exact Or.inr (Or.inl ⟨rfl, rfl⟩)

theorem after_concat (calls : List (Call κ)) (call : Call κ) :
    (after (calls ++ [call]) : Cache κ ρ) = (after calls).perform call := by
  rw [after, after, List.foldl_append]
  rfl

theorem not_ensured_nil : ¬ Ensured ([] : List (Call κ)) job := by
  rintro ⟨before, call, rest, hsplit, -⟩
  simp at hsplit

/-- What was ensured by the last call or before it, unless the last call clears the cache. -/
theorem ensured_concat :
    Ensured (calls ++ [call]) job ↔
      call.Ensures (after calls) job ∨ call ≠ .clear ∧ Ensured calls job := by
  constructor
  · rintro ⟨before, first, rest, hsplit, hensures, hkept⟩
    rcases rest.eq_nil_or_concat with rfl | ⟨rest, last, rfl⟩
    · obtain ⟨rfl, hlast⟩ := List.append_inj' hsplit rfl
      obtain rfl := List.singleton_inj.mp hlast
      exact Or.inl hensures
    · rw [List.concat_eq_append] at hsplit hkept
      rw [← List.cons_append, ← List.append_assoc] at hsplit
      obtain ⟨rfl, hlast⟩ := List.append_inj' hsplit rfl
      obtain rfl := List.singleton_inj.mp hlast
      obtain ⟨hkept, hlast⟩ := List.forall_mem_append.mp hkept
      exact Or.inr ⟨hlast call List.mem_cons_self, before, first, rest, rfl, hensures, hkept⟩
  · rintro (hensures | ⟨hcall, before, first, rest, rfl, hensures, hkept⟩)
    · exact ⟨calls, call, [], rfl, hensures, by simp⟩
    · refine ⟨before, first, rest ++ [call], by simp, hensures, ?_⟩
      exact List.forall_mem_append.mpr ⟨hkept, by simpa using hcall⟩

end Histories

/-- Every result that is kept is that of its job. -/
def Sound [BEq κ] [Hashable κ] [Job κ ρ] (cache : Cache κ ρ) : Prop :=
  ∀ job result, cache.get? job = some result → Job.Gives job result

section Lawful

variable [BEq κ] [Hashable κ] {cache grown : Cache κ ρ} {job other : κ} {result : ρ}

theorem contains_empty : (empty : Cache κ ρ).contains job = false := by simp [contains, empty]

theorem sound_empty [Job κ ρ] : (empty : Cache κ ρ).Sound := by simp [Sound, get?, empty]

theorem Sound.gives_of_ensure [Job κ ρ] {monitor : Monitor σ} {state final : σ}
    (hsteady : Steady κ) (hcache : cache.Sound)
    (h : cache.ensure job monitor state = .ok ((.ok result, final), grown)) :
    Job.Gives job result := by
  rcases ensure_cases h with ⟨hkept, -⟩ | ⟨-, hrun, -⟩
  · exact hcache job result hkept
  · exact hsteady job monitor state final result hrun

variable [LawfulBEq κ]

theorem get?_keep : (cache.keep job result).get? other =
    if job == other then some result else cache.get? other :=
  Std.HashMap.getElem?_insert

theorem contains_keep : (cache.keep job result).contains other = true ↔
    other = job ∨ cache.contains other = true := by
  rw [contains, keep, Std.HashMap.contains_insert, Bool.or_eq_true, beq_iff_eq, eq_comm]
  rfl

theorem contains_iff_get? : cache.contains job = true ↔ ∃ result, cache.get? job = some result := by
  rw [contains, Std.HashMap.contains_eq_isSome_getElem?, Option.isSome_iff_exists]
  rfl

variable [Job κ ρ] {monitor : Monitor σ} {state final : σ}

/-- After a job was ensured its result is kept, and no other one more than before. -/
theorem contains_of_ensure (h : cache.ensure job monitor state = .ok ((.ok result, final), grown)) :
    grown.contains other = true ↔ other = job ∨ cache.contains other = true := by
  rcases ensure_cases h with ⟨hkept, rfl⟩ | ⟨-, -, rfl⟩
  · have hjob : grown.contains job = true := contains_iff_get?.mpr ⟨result, hkept⟩
    exact ⟨Or.inr, fun hother => hother.elim (fun hsame => hsame ▸ hjob) id⟩
  · exact contains_keep

theorem Sound.ensure (hsteady : Steady κ) (hcache : cache.Sound)
    (h : cache.ensure job monitor state = .ok ((.ok result, final), grown)) : grown.Sound := by
  have hgives := hcache.gives_of_ensure hsteady h
  rcases ensure_cases h with ⟨-, rfl⟩ | ⟨-, -, rfl⟩
  · exact hcache
  · intro other kept hkept
    rw [get?_keep] at hkept
    split at hkept
    · next hsame =>
        obtain rfl := Option.some.inj hkept
        exact eq_of_beq hsame ▸ hgives
    · exact hcache other kept hkept

/-- After any calls every kept result is the result of its job, and the jobs with kept results are
those that were ensured since the cache was cleared. -/
theorem sound_after (hsteady : Steady κ) (calls : List (Call κ)) :
    (after calls : Cache κ ρ).Sound ∧
      ∀ job, (after calls : Cache κ ρ).contains job = true ↔ Ensured calls job := by
  induction calls using List.reverseRecOn with
  | nil =>
      refine ⟨sound_empty, fun job => iff_of_false ?_ not_ensured_nil⟩
      exact Bool.not_eq_true _ ▸ contains_empty
  | append_singleton calls call ih =>
      obtain ⟨hsound, hjobs⟩ := ih
      simp only [after_concat, ensured_concat]
      rcases perform_cases (after calls) call with
        ⟨σ, job, monitor, state, final, result, hensure, hcall, hensures⟩ | ⟨rfl, hempty⟩ |
          ⟨hsame, hcall, hensures⟩
      · refine ⟨hsound.ensure hsteady hensure, fun other => ?_⟩
        rw [contains_of_ensure hensure, hensures, hjobs]
        simp [hcall]
      · rw [hempty]
        exact ⟨sound_empty, fun job => by simp [contains_empty, Call.Ensures]⟩
      · rw [hsame]
        exact ⟨hsound, fun other => by simp [hjobs, hensures, hcall]⟩

/-- A cache for jobs whose results do not depend on the monitor is transparent. -/
theorem transparent_of_steady (hsteady : Steady κ) (calls : List (Call κ)) :
    Transparent calls := by
  obtain ⟨hsound, hcontains⟩ := sound_after hsteady calls
  refine ⟨fun _ _ _ _ _ _ => hsound.gives_of_ensure hsteady, hsound,
    fun job hkept => ?_, fun _ _ _ _ _ _ => eq_of_ensure_eq_error, hcontains, ?_⟩
  · obtain ⟨result, hresult⟩ := contains_iff_get?.mp hkept
    exact ⟨result, ensure_of_get? hresult⟩
  · classical
    have hset : {job | Ensured calls job} =
        ((after calls : Cache κ ρ).results.keys.toFinset : Set κ) := by
      ext job
      have hkey : job ∈ (after calls : Cache κ ρ).results.keys ↔ Ensured calls job := by
        rw [Std.HashMap.mem_keys, ← Std.HashMap.contains_iff_mem]
        exact hcontains job
      rw [List.coe_toFinset]
      exact hkey.symm
    rw [hset, Set.ncard_coe_finset, List.toFinset_card_of_nodup Std.HashMap.nodup_keys,
      Std.HashMap.length_keys]
    rfl

/-- Caches for jobs of any kind are transparent after all calls. -/
theorem history_transparent :
    (∀ calls : List (Call NnfJob), Transparent calls) ∧
      (∀ calls : List (Call NormalFormJob), Transparent calls) ∧
      ∀ calls : List (Call EncodingJob), Transparent calls :=
  ⟨transparent_of_steady steady_nnfJob, transparent_of_steady steady_normalFormJob,
    transparent_of_steady steady_encodingJob⟩

end Lawful

namespace CacheWitness

/-- A negated literal. -/
def job : NnfJob := ⟨.node .not [.literal "a" true]⟩

/-- Another negated literal. -/
def other : NnfJob := ⟨.node .not [.literal "b" true]⟩

/-- Another job is done before the cache is cleared.  Then the job is canceled, done, and asked for
again under the monitor that has canceled it. -/
def calls : List (Call NnfJob) :=
  [.ensure other .silent (), .clear, .ensure job Supervisor.cancellation.toMonitor true,
    .ensure job .silent (), .ensure job Supervisor.cancellation.toMonitor true, .get other]

/-- While nobody watches, a negation normal form is always found. -/
theorem exists_ensure_silent (cache : Cache NnfJob Expression) (job : NnfJob) :
    ∃ result grown, cache.ensure job .silent () = .ok ((.ok result, ()), grown) := by
  cases hkept : cache.get? job with
  | some result => exact ⟨result, cache, ensure_of_get? hkept _ _⟩
  | none => exact ⟨_, _, ensure_of_get?_eq_none hkept _ _⟩

theorem ensured_calls : Ensured calls job := by
  refine ⟨calls.take 3, .ensure job .silent (), calls.drop 4, rfl, ⟨rfl, ?_⟩, by simp [calls]⟩
  obtain ⟨result, grown, hensure⟩ := exists_ensure_silent (after (calls.take 3)) job
  exact ⟨result, (), grown, hensure⟩

/-- No other job was asked for since the cache was cleared. -/
theorem eq_of_ensured {wanted : NnfJob} (h : Ensured calls wanted) : wanted = job := by
  have hsplit : calls = calls.take 1 ++ [.clear] ++
      [.ensure job Supervisor.cancellation.toMonitor true] ++ [.ensure job .silent ()] ++
      [.ensure job Supervisor.cancellation.toMonitor true] ++ [.get other] := rfl
  rw [hsplit] at h
  simp only [ensured_concat, Call.Ensures, ne_eq, not_true_eq_false, false_and, or_false] at h
  grind

theorem history_transparent_sample :
    (after calls).size = 1 ∧ Ensured calls job ∧ ¬ (after calls).contains other = true ∧
      ∃ result, Job.Gives job result ∧
        (after calls).ensure job Supervisor.cancellation.toMonitor true =
          .ok ((.ok result, true), after calls) := by
  have hcalls := history_transparent.1 calls
  have hset : {wanted | Ensured calls wanted} = {job} := by
    ext wanted
    exact ⟨eq_of_ensured, fun hsame => hsame ▸ ensured_calls⟩
  have hsize : (after calls).size = 1 := by rw [hcalls.size_eq, hset, Set.ncard_singleton]
  have hdiffer : other ≠ job := ne_of_beq_false (by decide +kernel)
  have hkept := (hcalls.contains_iff job).mpr ensured_calls
  obtain ⟨result, hensure⟩ := hcalls.ensure_of_contains job hkept
  refine ⟨hsize, ensured_calls, ?_, result, ?_, hensure _ _⟩
  · exact fun h => hdiffer (eq_of_ensured ((hcalls.contains_iff other).mp h))
  · exact hcalls.ensure_gives job .silent () () result _ (hensure .silent ())

end CacheWitness

end Cache

end ClauseForm
