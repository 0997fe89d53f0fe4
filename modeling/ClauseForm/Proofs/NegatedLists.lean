import ClauseForm.Proofs.NegatedClauses
import ClauseForm.Proofs.UsableLiterals

/-!
Negated lists of clauses and their duals.

Negating the clauses of a list negates its truth value if the list is then read in the other normal
form.  The dual of a negated list and the negated dual of a list visit the choices in different
orders, so they keep equal clauses at different places; `mem_toDual_negate` says that they have the
same clauses.
-/

namespace ClauseForm

namespace Clauses

open Clause

variable {l : Clauses} {c : Clause} {lists : List (List Int)} {ks : List Int} {τ : Int → Bool}

/-! ### The truth value -/

/-- A negated clause has a true literal exactly if the clause has a false one. -/
theorem any_negate (hτ : ∀ x ∈ c.toList, τ (-x) = !τ x) :
    (Literals.negate c).toList.any τ = !c.toList.all τ := by
  rw [toList_negate, List.any_map, List.any_reverse, List.not_all_eq_any_not]
  exact any_congr_of_mem hτ

theorem all_negate (hτ : ∀ x ∈ c.toList, τ (-x) = !τ x) :
    (Literals.negate c).toList.all τ = !c.toList.any τ := by
  rw [toList_negate, List.all_map, List.all_reverse, List.not_any_eq_all_not]
  exact all_congr_of_mem hτ

theorem reads_negate (form : NormalForm)
    (hτ : ∀ c ∈ l.toList, ∀ x ∈ c.toList, τ (-x) = !τ x) :
    form.dual.reads τ l.negate.toList = !form.reads τ l.toList := by
  cases form with
  | cnf =>
      calc NormalForm.dnf.reads τ l.negate.toList
          = l.toList.any fun c => (Literals.negate c).toList.all τ := List.any_map
        _ = l.toList.any fun c => !c.toList.any τ :=
            any_congr_of_mem fun c hc => all_negate (hτ c hc)
        _ = !NormalForm.cnf.reads τ l.toList := (List.not_all_eq_any_not ..).symm
  | dnf =>
      calc NormalForm.cnf.reads τ l.negate.toList
          = l.toList.all fun c => (Literals.negate c).toList.any τ := List.all_map
        _ = l.toList.all fun c => !c.toList.all τ :=
            all_congr_of_mem fun c hc => any_negate (hτ c hc)
        _ = !NormalForm.dnf.reads τ l.toList := (List.not_any_eq_all_not ..).symm

/-! ### The dual -/

/-- A choice has one literal of each list. -/
theorem mem_choices : ks ∈ choices lists ↔ List.Forall₂ (fun k ls => k ∈ ls) ks lists := by
  induction lists generalizing ks with
  | nil => rw [choices, List.mem_singleton, List.forall₂_nil_right_iff]
  | cons ls lists ih =>
      simp only [choices, List.mem_flatMap, List.mem_map, ih, List.forall₂_cons_right_iff]
      constructor
      · rintro ⟨k, hk, ks, hks, rfl⟩
        exact ⟨k, ks, hk, hks, rfl⟩
      · rintro ⟨k, ks, hk, hks, rfl⟩
        exact ⟨k, hk, ks, hks, rfl⟩

/-- The dual has the clauses of the choices without opposed literals. -/
theorem mem_toDual :
    c ∈ l.toDual.toList ↔
      ∃ ks, List.Forall₂ (fun k (d : Clause) => k ∈ d.toList) ks l.toList ∧ chosen? ks = some c := by
  simp only [toDual_eq, List.mem_eraseDups, List.mem_filterMap, mem_choices,
    List.forall₂_map_right_iff]

theorem nodup_toDual (l : Clauses) : l.toDual.toList.Nodup := by
  rw [toDual_eq]
  exact nodup_eraseDups _

/-- A choice from negated clauses is a choice from the clauses with all signs swapped. -/
theorem negate_mem_toDual_negate (hc : c ∈ l.toDual.toList) :
    Literals.negate c ∈ l.negate.toDual.toList := by
  obtain ⟨ks, hks, hchosen⟩ := mem_toDual.mp hc
  refine mem_toDual.mpr ⟨ks.map fun k => -k, ?_, ?_⟩
  · rw [negate, List.forall₂_map_left_iff, List.forall₂_map_right_iff]
    exact hks.imp fun k d hk => Literals.neg_mem_negate.mpr hk
  · rw [chosen?, reduced?_map_neg, ← chosen?, hchosen]
    rfl

theorem negate_negate (l : Clauses) : l.negate.negate = l := by
  have hback : Literals.negate ∘ Literals.negate = (id : Clause → Clause) :=
    funext Clause.negate_negate
  rw [negate, negate, List.map_map, hback, List.map_id]

/-- The dual of the negation has the clauses of the negation of the dual. -/
theorem mem_toDual_negate : c ∈ l.negate.toDual.toList ↔ c ∈ l.toDual.negate.toList := by
  constructor
  · intro hc
    have hback : Literals.negate c ∈ l.toDual.toList := by
      rw [← l.negate_negate]
      exact negate_mem_toDual_negate hc
    exact List.mem_map.mpr ⟨Literals.negate c, hback, Clause.negate_negate c⟩
  · intro hc
    obtain ⟨d, hd, rfl⟩ := List.mem_map.mp hc
    exact negate_mem_toDual_negate hd

theorem nodup_negate (hl : l.toList.Nodup) : l.negate.toList.Nodup :=
  hl.map negate_injective

/-! ### Negation as a whole -/

/-- A list of negated clauses has the opposite truth value in the other normal form.  Its clauses are
in order again, and negating them once more gives the list back.  Negating a list and taking its dual
can be exchanged, up to the places of the clauses, each of which there is once. -/
theorem negate_spec (hl : ∀ c ∈ l.toList, c.Valid) :
    (∀ (form : NormalForm) (β : Nat → Bool),
        form.dual.reads (trueUnder β) l.negate.toList = !form.reads (trueUnder β) l.toList) ∧
      (∀ c ∈ l.negate.toList, c.Valid) ∧
      l.negate.negate = l ∧
      l.negate.toDual.toList.Nodup ∧
      l.toDual.negate.toList.Nodup ∧
      ∀ c, c ∈ l.negate.toDual.toList ↔ c ∈ l.toDual.negate.toList := by
  refine ⟨fun form β => ?_, ?_, l.negate_negate, nodup_toDual _, nodup_negate (nodup_toDual l),
    fun c => mem_toDual_negate⟩
  · exact reads_negate form fun c hc x hx => trueUnder_neg β ((hl c hc).usable x hx).1
  · exact List.forall_mem_map.mpr fun c hc =>
      valid_iff_proper.mpr (valid_iff_proper.mp (hl c hc)).negate

namespace NegatedListsWitness

/-- A clause with a repeated literal and one that shares an index with it. -/
def sample : Clauses := ⟨[⟨#[-2, 1, 1]⟩, ⟨#[-1, 3]⟩]⟩

/-- Where 2 is the only true index, the first clause is false and its negation is true. -/
theorem negate_spec_sample :
    ((∀ c ∈ sample.toList, c.Valid) ∧ sample.negate = ⟨[⟨#[-1, -1, 2]⟩, ⟨#[-3, 1]⟩]⟩) ∧
      NormalForm.cnf.reads (trueUnder (· == 2)) sample.toList = false ∧
      NormalForm.dnf.reads (trueUnder (· == 2)) sample.negate.toList = true ∧
      sample.negate.negate = sample ∧
      ∀ c, c ∈ sample.negate.toDual.toList ↔ c ∈ sample.toDual.negate.toList := by
  have hsample : ∀ c ∈ sample.toList, c.Valid := by
    intro c hc
    simp only [sample, List.mem_cons, List.not_mem_nil, or_false] at hc
    rcases hc with rfl | rfl <;> exact ⟨by decide, by decide⟩
  have hfalse : NormalForm.cnf.reads (trueUnder (· == 2)) sample.toList = false := by decide
  obtain ⟨hreads, -, hback, -, -, hdual⟩ := negate_spec hsample
  refine ⟨⟨hsample, by decide +kernel⟩, hfalse, ?_, hback, hdual⟩
  exact (hreads .cnf _).trans (by rw [hfalse]; rfl)

end NegatedListsWitness

end Clauses

end ClauseForm
