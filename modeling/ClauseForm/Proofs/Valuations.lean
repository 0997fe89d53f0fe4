import ClauseForm.ModelSearch
import ClauseForm.Proofs.ClauseTruth
import Mathlib.Data.List.Nodup
import Mathlib.Data.Nat.Bitwise

/-!
Valuations as truth values of indices.

The valuation of a number gives the free indices the binary digits of the number and leaves the
other indices alone.  Its solution has the true literal of each index.
-/

namespace ClauseForm

/-- The truth value of an index under truth values of the indices from one on. -/
def truthAt {n : Nat} (β : Fin n → Bool) (index : Nat) : Bool :=
  if h : index - 1 < n then β ⟨index - 1, h⟩ else false

theorem truthAt_succ {n i : Nat} (β : Fin n → Bool) (hi : i < n) :
    truthAt β (i + 1) = β ⟨i, hi⟩ :=
  dif_pos hi

namespace Clauses

variable {l : Clauses} {β γ : Nat → Bool}

/-- Decides whether clauses, read as a conjunction, are true under truth values of indices. -/
def satisfiedUnder (l : Clauses) (β : Nat → Bool) : Bool :=
  NormalForm.reads .cnf (trueUnder β) l.toList

theorem foldl_max_le_iff {as : List Nat} {a b : Nat} :
    as.foldl max a ≤ b ↔ a ≤ b ∧ ∀ x ∈ as, x ≤ b := by
  induction as generalizing a with
  | nil => simp
  | cons x as ih => rw [List.foldl_cons, ih, Nat.max_le, List.forall_mem_cons, and_assoc]

/-- The largest index bounds the indices of all literals, and nothing smaller does. -/
theorem maxIndex_le_iff {n : Nat} :
    l.maxIndex ≤ n ↔ ∀ c ∈ l.toList, ∀ x ∈ c.toList, x.natAbs ≤ n := by
  rw [maxIndex, foldl_max_le_iff]
  simp only [Nat.zero_le, true_and, literals, List.forall_mem_map, List.mem_flatMap,
    forall_exists_index, and_imp]
  exact ⟨fun h c hc x hx => h x c hc hx, fun h x c hc hx => h c hc x hx⟩

/-- Together two lists have the larger one of their largest indices. -/
theorem maxIndex_append (cs ds : List Clause) :
    maxIndex ⟨cs ++ ds⟩ = max (maxIndex ⟨cs⟩) (maxIndex ⟨ds⟩) := by
  refine eq_of_forall_ge_iff fun n => ?_
  simp only [Nat.max_le, maxIndex_le_iff, List.forall_mem_append]

/-- All literals of the clauses have positive indices. -/
def Indexed (l : Clauses) : Prop := ∀ c ∈ l.toList, ∀ x ∈ c.toList, 0 < x.natAbs

theorem satisfiedUnder_congr (hl : l.Indexed)
    (h : ∀ i, i < l.maxIndex → β (i + 1) = γ (i + 1)) :
    l.satisfiedUnder β = l.satisfiedUnder γ := by
  apply NormalForm.reads_congr
  intro c hc x hx
  have hpositive := hl c hc x hx
  have hbound := maxIndex_le_iff.mp (Nat.le_refl l.maxIndex) c hc x hx
  have := h (x.natAbs - 1) (by omega)
  rw [Nat.sub_add_cancel hpositive] at this
  rw [trueUnder, trueUnder, this]

end Clauses

namespace Valuation

variable {v : Valuation} {free : List Nat} {index number : Nat}

/-- The valuation of a number: its binary digits, from the lowest, become the truth values of the
free indices in turn. -/
def numbered : List Nat → Nat → Valuation → Valuation
  | [], _, v => v
  | index :: free, number, v =>
    numbered free (number / 2) (v.setIfInBounds index (number % 2 == 1))

@[simp]
theorem size_numbered (free : List Nat) (number : Nat) (v : Valuation) :
    (numbered free number v).size = v.size := by
  induction free generalizing number v with
  | nil => rfl
  | cons index free ih => rw [numbered, ih, Array.size_setIfInBounds]

/-- The indices that are not free keep their values. -/
theorem value_numbered_of_not_mem (hfree : ∀ i ∈ free, i < v.size) (h : index ∉ free) :
    (numbered free number v).value index = v.value index := by
  induction free generalizing number v with
  | nil => rfl
  | cons i free ih =>
      have hne := List.ne_of_not_mem_cons h
      have hrest := List.not_mem_of_not_mem_cons h
      obtain ⟨hi, hfree⟩ := List.forall_mem_cons.mp hfree
      rw [numbered, ih (by simpa using hfree) hrest, value_setIfInBounds _ hi,
        if_neg (Ne.symm hne)]

/-- The values of the free indices are the binary digits of the number. -/
theorem value_numbered_getElem (hfree : ∀ i ∈ free, i < v.size) (hnodup : free.Nodup) {i : Nat}
    (hi : i < free.length) : (numbered free number v).value free[i] = number.testBit i := by
  induction free generalizing number v i with
  | nil => contradiction
  | cons index free ih =>
      obtain ⟨hindex, hfree⟩ := List.forall_mem_cons.mp hfree
      obtain ⟨hnew, hnodup⟩ := List.nodup_cons.mp hnodup
      have hfree' : ∀ b, ∀ i ∈ free, i < (v.setIfInBounds index b).size := by simpa using hfree
      rw [numbered]
      cases i with
      | zero =>
          rw [List.getElem_cons_zero, value_numbered_of_not_mem (hfree' _) hnew,
            value_setIfInBounds _ hindex, if_pos rfl, Nat.testBit_zero]
          exact Bool.beq_eq_decide_eq ..
      | succ i =>
          rw [List.getElem_cons_succ, ih (hfree' _) hnodup, Nat.testBit_succ]

/-- The valuation of the indices up to a count whose values are the binary digits of a number. -/
def ofNumber (count number : Nat) : Valuation :=
  numbered (List.range' 1 count) number (Array.replicate (count + 1) false)

theorem size_ofNumber (count number : Nat) : (ofNumber count number).size = count + 1 := by
  rw [ofNumber, size_numbered, Array.size_replicate]

theorem value_ofNumber {count i : Nat} (hi : i < count) (number : Nat) :
    (ofNumber count number).value (i + 1) = number.testBit i := by
  have hsmall : ∀ index ∈ List.range' 1 count, index < (Array.replicate (count + 1) false).size := by
    intro index hindex
    rw [Array.size_replicate]
    have := List.mem_range'_1.mp hindex
    omega
  have hlength : i < (List.range' 1 count).length := by rwa [List.length_range']
  have hvalue : (ofNumber count number).value (List.range' 1 count)[i] = number.testBit i :=
    value_numbered_getElem hsmall List.nodup_range' hlength
  rwa [List.getElem_range', Nat.one_mul, Nat.add_comm 1 i] at hvalue

/-- The true literal of an index. -/
def literalAt (v : Valuation) (i : Nat) : Int :=
  if v.value (i + 1) then (i : Int) + 1 else -((i : Int) + 1)

theorem natAbs_literalAt (v : Valuation) (i : Nat) : (v.literalAt i).natAbs = i + 1 := by
  unfold literalAt
  split <;> omega

theorem decide_pos_literalAt (v : Valuation) (i : Nat) :
    decide (0 < v.literalAt i) = v.value (i + 1) := by
  unfold literalAt
  cases v.value (i + 1) with
  | true => simp
  | false =>
      simp only [Bool.false_eq_true, if_false, decide_eq_false_iff_not]
      omega

theorem value_of_size_le {i : Nat} (hi : v.size ≤ i) : v.value i = false := by
  simp [value, Array.getElem?_eq_none hi]

theorem toSolution_eq (v : Valuation) :
    v.toSolution = .arranged ((List.range (v.size - 1)).map v.literalAt) := rfl

theorem toList_toSolution_perm (v : Valuation) :
    v.toSolution.toList.Perm ((List.range (v.size - 1)).map v.literalAt) := by
  rw [toSolution_eq, Literals.toList_arranged]
  exact LiteralOrder.arrange_perm _ _

theorem literalAt_eq_iff {l : Int} {i : Nat} :
    v.literalAt i = l ↔ l.natAbs = i + 1 ∧ trueUnder v.value l = true := by
  constructor
  · rintro rfl
    rw [trueUnder, decide_pos_literalAt, natAbs_literalAt]
    exact ⟨rfl, beq_self_eq_true _⟩
  · rintro ⟨hindex, htrue⟩
    rw [trueUnder, beq_iff_eq, hindex] at htrue
    rw [literalAt, htrue]
    simp only [decide_eq_true_eq]
    split <;> omega

/-- A solution has the literals of the indices in range that are true. -/
theorem mem_toSolution {l : Int} :
    l ∈ v.toSolution.toList ↔
      (0 < l.natAbs ∧ l.natAbs < v.size) ∧ trueUnder v.value l = true := by
  rw [v.toList_toSolution_perm.mem_iff, List.mem_map]
  simp only [literalAt_eq_iff, List.mem_range]
  constructor
  · rintro ⟨i, hi, hindex, htrue⟩
    exact ⟨⟨by omega, by omega⟩, htrue⟩
  · rintro ⟨⟨hpositive, hbound⟩, htrue⟩
    exact ⟨l.natAbs - 1, by omega, by omega, htrue⟩

/-- A solution has one literal for each index in range. -/
theorem map_natAbs_toSolution (v : Valuation) :
    v.toSolution.toList.map Int.natAbs = List.range' 1 (v.size - 1) := by
  have hsorted : ((List.range (v.size - 1)).map v.literalAt).Pairwise fun a b =>
      (LiteralOrder.compareByIndex a b).isLE = true := by
    rw [List.pairwise_map]
    refine (List.pairwise_lt_range).imp fun {i j} hij => ?_
    rw [LiteralOrder.compareByIndex, natAbs_literalAt, natAbs_literalAt,
      Nat.compare_eq_lt.mpr (Nat.succ_lt_succ hij)]
    rfl
  rw [toSolution_eq, Literals.toList_arranged, LiteralOrder.arrange,
    List.mergeSort_of_pairwise hsorted, List.map_map, List.range'_eq_map_range]
  refine List.map_congr_left fun i _ => ?_
  rw [Function.comp, natAbs_literalAt, Nat.add_comm]

end Valuation

end ClauseForm
