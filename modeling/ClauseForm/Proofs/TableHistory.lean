import ClauseForm.Proofs.ExactNumbering
import ClauseForm.Proofs.NumberingTables

/-!
Histories of a numbering in two tables.

The tables are changed by ensuring an index for a name, by giving a name a certain index, by taking
a name away, and by turning bindings into literals.  `after_spec` says what all tables have in common
that are reached from the empty ones: names and indices belong to each other one to one, and the
largest index remembers every index that ever had a name, so that none is handed out again.
-/

namespace ClauseForm

namespace NumberingTables

/-- The tables after a change, whether it succeeds or fails. -/
def perform (t : NumberingTables) : Numbering.Change → NumberingTables
  | .ensure name => ((ensure name).run.run t).2
  | .insert name i => ((insert name i).run.run t).2
  | .erase name => ((erase name).run t).2
  | .extend o v => ((ofBindingsExtending (o := o) v).run.run t).2

/-- The tables after some changes to given ones. -/
def performAll (t : NumberingTables) (changes : List Numbering.Change) : NumberingTables :=
  changes.foldl perform t

/-- The tables after some changes to the empty ones. -/
def after (changes : List Numbering.Change) : NumberingTables := empty.performAll changes

/-- An index has a name. -/
def Mapped (t : NumberingTables) (i : Int) : Prop := ∃ name, t.nameOf? i = some name

/-- An index has a name after some changes, or had one on the way. -/
def EverMapped (changes : List Numbering.Change) (i : Int) : Prop :=
  ∃ before, before <+: changes ∧ (after before).Mapped i

/-- Names and indices belong to each other one to one, and the listings go by the indices. -/
structure Consistent (t : NumberingTables) : Prop where
  indexOf?_iff : ∀ name i, t.indexOf? name = some i ↔ t.nameOf? i = some name
  within : ∀ i, t.Mapped i → 1 ≤ i ∧ i ≤ t.maxIndex
  size_eq : t.size = {i | t.Mapped i}.ncard
  mem_indices : ∀ i, i ∈ t.indices ↔ t.Mapped i
  increasing : t.indices.Pairwise (· < ·)
  names_eq : t.names.map some = t.indices.map t.nameOf?

variable {t u : NumberingTables} {name : String} {i : Int}

theorem mapped_iff : t.Mapped i ↔ t.toNumbering.Mapped i := by
  simp only [Mapped, Numbering.Mapped, nameOf?_eq]

/-- Tables that are in step list what the numbering in one list does. -/
theorem InStep.consistent (h : t.InStep) : t.Consistent where
  indexOf?_iff := h.indexOf?_iff
  within i := fun ⟨name, hname⟩ => h.within name i hname
  size_eq := by
    simp only [mapped_iff]
    exact h.size_eq.trans h.valid.consistent.size_eq
  mem_indices i := (h.valid.consistent.mem_indices i).trans mapped_iff.symm
  increasing := t.increasing_indices
  names_eq := by
    rw [funext t.nameOf?_eq]
    exact h.valid.consistent.names_eq

theorem inStep_empty : empty.InStep where
  nonneg := Int.le_refl 0
  indexOf?_iff := by simp [indexOf?, nameOf?, empty]
  within := by simp [nameOf?, empty]

/-- A change keeps the tables in step, and it is the same in one list. -/
theorem InStep.perform (h : t.InStep) (change : Numbering.Change) :
    (t.perform change).InStep ∧
      (t.perform change).toNumbering = t.toNumbering.perform change := by
  cases change with
  | ensure name =>
      refine ⟨h.ensure name, ?_⟩
      rw [Numbering.perform, h.ensure_eq, NumberingTables.perform]
      rcases hrun : (NumberingTables.ensure name).run.run t with ⟨e | i, grown⟩
      · rw [eq_of_ensure_error hrun]
        rfl
      · rfl
  | insert name i =>
      refine ⟨h.insert name i, ?_⟩
      rw [Numbering.perform, h.insert_eq, NumberingTables.perform]
      rcases hrun : (NumberingTables.insert name i).run.run t with ⟨fault | _, grown⟩
      · rw [eq_of_insert_error hrun]
        rfl
      · rfl
  | erase name =>
      refine ⟨h.erase name, ?_⟩
      rw [Numbering.perform, h.erase_eq]
      rfl
  | extend o v =>
      obtain ⟨hensured, hsame⟩ := h.ensureAll v.names
      rw [Numbering.perform_extend, NumberingTables.perform, run_ofBindingsExtending, hsame]
      exact ⟨hensured, rfl⟩

theorem InStep.performAll (h : t.InStep) (changes : List Numbering.Change) :
    (t.performAll changes).InStep ∧
      (t.performAll changes).toNumbering = t.toNumbering.performAll changes := by
  induction changes generalizing t with
  | nil => exact ⟨h, rfl⟩
  | cons change changes ih =>
      obtain ⟨hnext, hsame⟩ := h.perform change
      obtain ⟨hlast, hall⟩ := ih hnext
      refine ⟨hlast, hall.trans ?_⟩
      rw [hsame]
      rfl

theorem inStep_after (changes : List Numbering.Change) : (after changes).InStep :=
  (inStep_empty.performAll changes).1

theorem toNumbering_after (changes : List Numbering.Change) :
    (after changes).toNumbering = Numbering.after changes :=
  (inStep_empty.performAll changes).2

/-- Numbering names in turn fills the tables with the numbering of the names, as long as there are
indices for them. -/
theorem ofNames_eq {names : List String}
    (hroom : (names.eraseDups.length : Int) ≤ largestIndex) :
    (ofNames names).1 = .ok () ∧ (ofNames names).2.toNumbering = Numbering.ofNames names := by
  have hsame := (inStep_empty.ensureAll names).2
  have hempty : empty.toNumbering = Numbering.empty := rfl
  rw [hempty, Numbering.ensureAll_empty hroom] at hsame
  exact ⟨(congrArg Prod.fst hsame).symm, (congrArg Prod.snd hsame).symm⟩

theorem maxIndex_after (changes : List Numbering.Change) :
    (after changes).maxIndex = (Numbering.after changes).maxIndex :=
  congrArg Numbering.maxIndex (toNumbering_after changes)

theorem mapped_after_iff {changes : List Numbering.Change} :
    (after changes).Mapped i ↔ (Numbering.after changes).Mapped i := by
  rw [mapped_iff, toNumbering_after]

theorem setOf_everMapped (changes : List Numbering.Change) :
    {i | EverMapped changes i} = {i | Numbering.EverMapped changes i} := by
  simp only [EverMapped, Numbering.EverMapped, mapped_after_iff]

theorem after_append (changes more : List Numbering.Change) :
    after (changes ++ more) = (after changes).performAll more :=
  List.foldl_append

/-- Once there are no indices left, ensuring one more changes nothing. -/
theorem performAll_ensure_of_error {e : IndexError} (h : (ensure name).run.run t = (.error e, u))
    (names : List String) : t.performAll (names.map .ensure) = t := by
  have hfull := (ensure_error_cases h).1
  induction names with
  | nil => rfl
  | cons other names ih =>
      have hsame : t.perform (.ensure other) = t := by
        rw [perform, run_ensure]
        cases t.indexOf? other with
        | some i => rfl
        | none => exact congrArg Prod.snd (if_pos hfull)
      rw [List.map_cons, performAll, List.foldl_cons, hsame]
      exact ih

/-- Extending the tables ensures an index for each name in turn. -/
theorem ensureAll_eq_performAll (t : NumberingTables) (names : List String) :
    ((ensureAll names).run.run t).2 = t.performAll (names.map .ensure) := by
  induction names generalizing t with
  | nil => rfl
  | cons name names ih =>
      rw [run_ensureAll_cons]
      rcases h : (ensure name).run.run t with ⟨e | i, grown⟩
      · obtain rfl := eq_of_ensure_error h
        exact (performAll_ensure_of_error h (name :: names)).symm
      · have hfirst : t.perform (.ensure name) = grown := by rw [perform, h]
        rw [List.map_cons, performAll, List.foldl_cons, hfirst]
        exact ih grown

/-- Whatever was done to the tables since they were empty, names and indices belong to each other one
to one; the largest index is the largest one that ever had a name, and new indices come after it;
only taking a name away drops a name; and what fails leaves both tables as they were. -/
theorem after_spec (changes : List Numbering.Change) :
    (after changes).Consistent ∧
      IsGreatest ({0} ∪ {i | EverMapped changes i}) (after changes).maxIndex ∧
      (∀ more, (after changes).maxIndex ≤ (after (changes ++ more)).maxIndex) ∧
      (∀ name i grown, (ensure name).run.run (after changes) = (.ok i, grown) →
        grown.indexOf? name = some i ∧
          ((after changes).indexOf? name = none → ∀ j, EverMapped changes j → j < i)) ∧
      (∀ change, (∀ name, change ≠ .erase name) → ∀ name i,
        (after changes).indexOf? name = some i →
          ((after changes).perform change).indexOf? name = some i) ∧
      (∀ name i fault left, (insert name i).run.run (after changes) = (.error fault, left) →
        left = after changes) ∧
      (∀ name error left, (ensure name).run.run (after changes) = (.error error, left) →
        left = after changes) ∧
      ∀ o v, after (changes ++ [.extend o v]) = after (changes ++ v.names.map .ensure) := by
  have h := inStep_after changes
  have hm := Numbering.remembers_after changes
  refine ⟨h.consistent, ?_, ?_, ?_, ?_, ?_, ?_, ?_⟩
  · rw [setOf_everMapped, maxIndex_after]
    exact hm.greatest
  · intro more
    rw [maxIndex_after, maxIndex_after, Numbering.after_append]
    exact Numbering.maxIndex_le_performAll hm more
  · intro name i grown hrun
    rcases ensure_cases hrun with ⟨hknown, rfl⟩ | ⟨-, rfl, rfl⟩
    · refine ⟨hknown, fun hnew => ?_⟩
      rw [hnew] at hknown
      contradiction
    · refine ⟨by rw [indexOf?_placed, if_pos rfl], fun _ j hj => ?_⟩
      have hused : j ∈ {j | Numbering.EverMapped changes j} := setOf_everMapped changes ▸ hj
      rw [maxIndex_after]
      exact Int.lt_add_one_of_le (hm.greatest.2 (Or.inr hused))
  · intro change hchange name i hi
    obtain ⟨hnext, hsame⟩ := h.perform change
    have hgrows := Numbering.grows_perform hm.valid hm.nonneg hchange
    rw [h.indexOf?_eq, toNumbering_after, hm.valid.indexOf?_eq_some_iff] at hi
    rw [hnext.indexOf?_eq, hsame, toNumbering_after, hgrows.valid.indexOf?_eq_some_iff]
    exact hgrows.entries_subset hi
  · intro name i fault left hrun
    exact eq_of_insert_error hrun
  · intro name error left hrun
    exact eq_of_ensure_error hrun
  · intro o v
    rw [after_append, after_append, ← ensureAll_eq_performAll]
    exact congrArg Prod.snd (run_ofBindingsExtending (o := o) (after changes) v)

namespace TableHistoryWitness

/-- The index 2 is given up, and 7 is skipped to. -/
def changes : List Numbering.Change :=
  [.ensure "a", .extend .byValue ⟨[("b", .truth true)]⟩, .erase "b", .insert "c" 7]

/-- The index that was given up is not used again. -/
theorem after_spec_sample :
    ∃ grown, (ensure "b").run.run (after changes) = (.ok 8, grown) ∧
      EverMapped changes 2 ∧ ¬ (after changes).Mapped 2 ∧ (after changes).indexOf? "b" = none ∧
        grown.indexOf? "b" = some 8 ∧ (2 : Int) < 8 := by
  have h := inStep_after changes
  have hever : EverMapped changes 2 := by
    refine ⟨changes.take 2, List.take_prefix .., mapped_after_iff.mpr ⟨"b", ?_⟩⟩
    decide +kernel
  have hnow : ¬ (after changes).Mapped 2 := by
    rw [mapped_after_iff]
    rintro ⟨name, hname⟩
    have hnone : (Numbering.after changes).nameOf? 2 = none := by decide +kernel
    rw [hnone] at hname
    contradiction
  have hnew : (after changes).indexOf? "b" = none := by
    rw [h.indexOf?_eq, toNumbering_after]
    decide +kernel
  have hmax : (after changes).maxIndex = 7 := by
    rw [maxIndex_after]
    decide +kernel
  have hrun : (ensure "b").run.run (after changes) = (.ok 8, (after changes).placed "b" 8) := by
    rw [run_ensure, hnew, hmax]
    rfl
  obtain ⟨-, -, -, hcreated, -⟩ := after_spec changes
  obtain ⟨hindex, hlater⟩ := hcreated "b" 8 _ hrun
  exact ⟨_, hrun, hever, hnow, hnew, hindex, hlater hnew 2 hever⟩

end TableHistoryWitness

end NumberingTables

end ClauseForm
