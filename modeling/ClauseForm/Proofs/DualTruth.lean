import ClauseForm.Proofs.ProductReports
import ClauseForm.Proofs.Selections

/-!
A list of clauses and its dual have the same truth value.

The dual of a list consists of the choices of one literal from each clause.  `toDual_eq` gives it as
a list, and `reads_toDual` says that it is true in one normal form exactly when the list is true in
the other one.
-/

namespace ClauseForm

namespace Clauses

/-- All choices of one literal from each of some lists.  The last list changes its literal
fastest. -/
def choices : List (List Int) → List (List Int)
  | [] => [[]]
  | ls :: lists => ls.flatMap fun l => (choices lists).map (l :: ·)

theorem picked_cons {c : Clause} {i : Nat} {l : Int} (h : c.toList[i]? = some l)
    (cs : List Clause) (s : List Nat) : picked (c :: cs) (i :: s) = l :: picked cs s := by
  rw [Literals.toList, Array.getElem?_toList] at h
  exact List.filterMap_cons_some h

/-- The selections pick all choices. -/
theorem map_picked_selections (cs : List Clause) :
    (selections cs).map (picked cs) = choices (cs.map Literals.toList) := by
  induction cs with
  | nil => rfl
  | cons c cs ih =>
      have hpositions : c.toList = (List.range c.toList.length).map fun i => c.toList.getD i 0 :=
        List.ext_getElem (by simp) fun i hi _ => by simp [hi]
      rw [selections, List.map_cons, choices, ← ih, hpositions, List.map_flatMap, List.flatMap_map]
      apply List.flatMap_congr
      intro i hi
      have hliteral : c.toList[i]? = some (c.toList.getD i 0) := by
        have hi : i < c.toList.length := List.mem_range.mp hi
        simp [hi]
      rw [List.map_map, List.map_map]
      exact List.map_congr_left fun s _ => picked_cons hliteral cs s

/-- Going through the selections visits each choice once, in order. -/
theorem visitChoices_eq {m : Type → Type} [Monad m] {α : Type} (visit : α → List Int → m α)
    {cs : List Clause} (hcs : ∀ c ∈ cs, 0 < c.size) (state : α) :
    visitSelections visit cs (List.replicate cs.length 0) state =
      (choices (cs.map Literals.toList)).foldlM visit state := by
  rw [visitSelections_eq visit hcs, ← map_picked_selections, List.foldlM_map]

/-- There is no choice from an empty list. -/
theorem choices_of_nil_mem {lists : List (List Int)} (h : [] ∈ lists) : choices lists = [] := by
  induction lists with
  | nil => contradiction
  | cons ls lists ih =>
      rw [choices]
      rcases List.mem_cons.mp h with rfl | h
      · rfl
      · simp [ih h]

/-- The clause of some chosen literals, unless an index occurs in both signs. -/
def chosen? (ls : List Int) : Option Clause := Clause.reduced? (.arranged ls)

/-- Adds the clause of some chosen literals to those found. -/
def addChosen (found : Distinct Clause) (ls : List Int) : Distinct Clause :=
  match chosen? ls with
  | some c => found.add c
  | none => found

/-- The reports of one choice. -/
def choiceReports (found : Distinct Clause) (ls : List Int) : List Report :=
  .checkpoint ::
    match chosen? ls with
    | none => []
    | some c => keepReports found c

/-- The reports on the way to the dual of a list. -/
def dualReports (l : Clauses) : List Report :=
  foldReports choiceReports addChosen (choices (l.toList.map Literals.toList)) .empty

section Scripts

variable {m : Type → Type} [Monad m] [LawfulMonad m] (o : Observer m)

theorem scripted_addChoice (found : Distinct Clause) (ls : List Int) :
    o.Scripted (addChoice o found ls) (choiceReports found ls) (addChosen found ls) := by
  have kept : o.Scripted
      (match chosen? ls with
        | none => pure found
        | some c => o.keep found c)
      (match chosen? ls with
        | none => []
        | some c => keepReports found c)
      (addChosen found ls) := by
    unfold addChosen
    cases chosen? ls with
    | none => exact .pure found
    | some c => exact scripted_keep o found c
  exact Observer.Scripted.bind (.tell .checkpoint) kept

theorem toList_foldl_addChosen (lists : List (List Int)) :
    (lists.foldl addChosen Distinct.empty).toList = (lists.filterMap chosen?).eraseDups := by
  rw [← toList_foldl_add, List.foldl_filterMap]
  congr 2
  funext found ls
  rw [addChosen]
  cases chosen? ls <;> rfl

theorem scripted_toDual (l : Clauses) :
    o.Scripted (l.toDualM o) l.dualReports
      ⟨((choices (l.toList.map Literals.toList)).filterMap chosen?).eraseDups⟩ := by
  rw [toDualM, dualReports, ← toList_foldl_addChosen]
  split
  · rename_i hempty
    obtain ⟨c, hc, hnil⟩ := List.any_eq_true.mp hempty
    have hmem : [] ∈ l.toList.map Literals.toList :=
      List.mem_map.mpr ⟨c, hc, by simpa [Literals.isEmpty, Literals.toList] using hnil⟩
    rw [choices_of_nil_mem hmem]
    exact .pure _
  · rename_i hnonempty
    have hpositive : ∀ c ∈ l.toList, 0 < c.size := by
      simpa [Literals.isEmpty, Literals.size, Array.size_pos_iff] using hnonempty
    have found := Observer.Scripted.foldlM (scripted_addChoice o)
      (choices (l.toList.map Literals.toList)) Distinct.empty
    rw [← visitChoices_eq _ hpositive] at found
    rw [← map_eq_pure_bind]
    exact found.map fun found => Clauses.mk found.toList

end Scripts

/-- The dual of a list holds the clauses of its choices, each at its first place. -/
theorem toDual_eq (l : Clauses) :
    l.toDual.toList =
      ((choices (l.toList.map Literals.toList)).filterMap chosen?).eraseDups := by
  rw [toDual, (scripted_toDual (m := Id) Observer.silent l).eq_pure]
  rfl

section Truth

variable {τ : Int → Bool}

/-- All choices have a true literal if and only if all literals of some list are true. -/
theorem all_choices (lists : List (List Int)) :
    (choices lists).all (fun ls => ls.any τ) = lists.any fun ls => ls.all τ := by
  induction lists with
  | nil => rfl
  | cons ls lists ih =>
      have first : ∀ l, ((choices lists).map (l :: ·)).all (fun ls => ls.any τ) =
          (τ l || lists.any fun ls => ls.all τ) := by
        intro l
        rw [List.all_map, ← ih, ← Clause.all_const_or]
        rfl
      rw [choices, List.all_flatMap]
      simp only [first]
      rw [Clause.all_or_const, List.any_cons]

/-- Without the contradictory choices, which have a true literal, and without repetitions this is
the truth value of the dual. -/
theorem reads_cnf_toDual (hτ : ∀ x, 0 < x → τ (-x) = !τ x) (l : Clauses) :
    NormalForm.cnf.reads τ l.toDual.toList = NormalForm.dnf.reads τ l.toList := by
  have kept : ∀ ls, (chosen? ls).all (fun c => c.toList.any τ) = ls.any τ :=
    fun ls => Clause.any_reduced? fun x _ hx => hτ x hx
  calc NormalForm.cnf.reads τ l.toDual.toList
      = (choices (l.toList.map Literals.toList)).all (fun ls => ls.any τ) := by
        rw [toDual_eq, NormalForm.reads_eraseDups, NormalForm.reads, List.all_filterMap]
        refine all_congr_of_mem fun ls _ => ?_
        rw [← kept]
        cases chosen? ls <;> rfl
    _ = NormalForm.dnf.reads τ l.toList := by
        rw [all_choices, List.any_map]
        rfl

theorem reads_dnf_toDual (hτ : ∀ x, 0 < x → τ (-x) = !τ x) (l : Clauses) :
    NormalForm.dnf.reads τ l.toDual.toList = NormalForm.cnf.reads τ l.toList := by
  rw [NormalForm.reads_dnf_eq, reads_cnf_toDual (fun x hx => by rw [hτ x hx]),
    NormalForm.reads_dnf_eq]
  simp

end Truth

/-- A list is true in one normal form exactly when its dual is true in the other one. -/
theorem reads_toDual (form : NormalForm) (l : Clauses) (β : Nat → Bool) :
    form.dual.reads (trueUnder β) l.toDual.toList = form.reads (trueUnder β) l.toList := by
  cases form with
  | cnf => exact reads_dnf_toDual (fun _ hx => trueUnder_neg β (Int.ne_of_gt hx)) l
  | dnf => exact reads_cnf_toDual (fun _ hx => trueUnder_neg β (Int.ne_of_gt hx)) l

end Clauses

end ClauseForm
