import ClauseForm.Proofs.ClauseTruth
import ClauseForm.Proofs.LiteralOrders

/-!
What the clause of some literals is reduced to.

A reduced clause has its literals in increasing order and each of them once, so all that matters is
which literals there are.  `reduced?_eq_some_iff` describes it by that alone.
-/

namespace ClauseForm

namespace Clause

variable {c d : Clause} {ls ks : List Int} {l : Int}

/-- The literals of a clause increase, so that none of them is repeated. -/
def Increasing (c : Clause) : Prop := c.toList.Pairwise (· < ·)

/-- Some index occurs in both signs. -/
def Opposed (ls : List Int) : Prop := ∃ l ∈ ls, 0 < l ∧ -l ∈ ls

theorem Increasing.eq_of_mem_iff (hc : c.Increasing) (hd : d.Increasing)
    (h : ∀ l, l ∈ c.toList ↔ l ∈ d.toList) : c = d := by
  obtain ⟨⟨cs⟩⟩ := c
  obtain ⟨⟨ds⟩⟩ := d
  obtain rfl : cs = ds := List.Pairwise.eq_of_mem_iff hc hd h
  rfl

theorem pairwise_arrange (ls : List Int) :
    (LiteralOrder.byValue.arrange ls).Pairwise (· ≤ ·) :=
  LiteralOrder.byValue.pairwise_arrange ls

/-- A clause does not depend on the order of the literals that it is made from. -/
theorem arranged_of_perm (h : ls.Perm ks) : (Literals.arranged ls : Clause) = .arranged ks := by
  have hdiffer : LiteralOrder.byValue ≠ .asGiven := nofun
  rw [Literals.arranged, Literals.arranged, LiteralOrder.arrange_of_perm hdiffer h]

/-- Among literals in order, repetitions are neighbours. -/
theorem pairwise_dropRepeats (h : ls.Pairwise (· ≤ ·)) : (dropRepeats ls).Pairwise (· < ·) := by
  fun_induction dropRepeats ls with
  | case1 => exact .nil
  | case2 l => exact List.pairwise_singleton _ l
  | case3 l k ls hequal ih => exact ih (List.pairwise_cons.mp h).2
  | case4 l k ls hdiffer ih =>
      obtain ⟨hfirst, hrest⟩ := List.pairwise_cons.mp h
      refine List.pairwise_cons.mpr ⟨fun j hj => ?_, ih hrest⟩
      have hle := hfirst k List.mem_cons_self
      have hne : l ≠ k := by simpa using hdiffer
      rcases List.mem_cons.mp (mem_dropRepeats.mp hj) with rfl | hj
      · omega
      · have := (List.pairwise_cons.mp hrest).1 j hj
        omega

theorem Increasing.inOrder (hc : c.Increasing) : c.InOrder :=
  hc.imp fun hless => Int.le_of_lt hless

theorem Increasing.contains_iff (hc : c.Increasing) : c.contains l = true ↔ l ∈ c.toList :=
  hc.inOrder.contains_iff

/-- The clause of some literals without repetitions. -/
def distinct (ls : List Int) : Clause := ⟨(dropRepeats (LiteralOrder.byValue.arrange ls)).toArray⟩

theorem increasing_distinct (ls : List Int) : (distinct ls).Increasing :=
  pairwise_dropRepeats (pairwise_arrange ls)

theorem mem_distinct : l ∈ (distinct ls).toList ↔ l ∈ ls :=
  mem_dropRepeats.trans (LiteralOrder.arrange_perm _ ls).mem_iff

theorem reduced?_arranged (ls : List Int) :
    reduced? (.arranged ls) =
      if (distinct ls).positives.any fun l => (distinct ls).contains (-l) then none
      else some (distinct ls) := rfl

/-- The clause of some literals is refused exactly if an index occurs in both signs. -/
theorem any_contains_neg_iff :
    ((distinct ls).positives.any fun l => (distinct ls).contains (-l)) = true ↔ Opposed ls := by
  simp only [List.any_eq_true, Literals.positives, List.mem_filter, decide_eq_true_eq,
    (increasing_distinct ls).contains_iff, mem_distinct, Opposed, and_assoc]

/-- A reduced clause has the literals it is made from, increasing. -/
theorem reduced?_eq_some_iff :
    reduced? (.arranged ls) = some c ↔
      ¬ Opposed ls ∧ c.Increasing ∧ ∀ l, l ∈ c.toList ↔ l ∈ ls := by
  rw [reduced?_arranged, ← any_contains_neg_iff]
  constructor
  · intro h
    split at h
    · contradiction
    · next hkept =>
        obtain rfl := Option.some.inj h
        exact ⟨hkept, increasing_distinct ls, fun l => mem_distinct⟩
  · rintro ⟨hkept, hincreasing, hmem⟩
    rw [if_neg hkept, Option.some.injEq]
    exact (increasing_distinct ls).eq_of_mem_iff hincreasing fun l =>
      mem_distinct.trans (hmem l).symm

theorem reduced?_eq_none_iff : reduced? (.arranged ls) = none ↔ Opposed ls := by
  rw [reduced?_arranged, ← any_contains_neg_iff]
  split <;> simp_all

/-- In both signs means: with some sign and with the other one. -/
theorem opposed_iff : Opposed ls ↔ ∃ l ∈ ls, l ≠ 0 ∧ -l ∈ ls := by
  constructor
  · rintro ⟨l, hl, hpositive, hopposite⟩
    exact ⟨l, hl, Int.ne_of_gt hpositive, hopposite⟩
  · rintro ⟨l, hl, hnonzero, hopposite⟩
    rcases Int.lt_or_gt_of_ne hnonzero with hnegative | hpositive
    · exact ⟨-l, hopposite, by omega, by rwa [Int.neg_neg]⟩
    · exact ⟨l, hl, hpositive, hopposite⟩

theorem Opposed.mono (h : Opposed ls) (hsub : ls ⊆ ks) : Opposed ks := by
  obtain ⟨l, hl, hpositive, hopposite⟩ := h
  exact ⟨l, hsub hl, hpositive, hsub hopposite⟩

/-- Only the members of a list of literals matter to its reduced clause. -/
theorem reduced?_congr (h : ∀ l, l ∈ ls ↔ l ∈ ks) :
    reduced? (.arranged ls) = reduced? (.arranged ks) := by
  have hopposed : Opposed ls ↔ Opposed ks := by simp only [Opposed, h]
  ext c
  simp only [reduced?_eq_some_iff, hopposed, h]

end Clause

end ClauseForm
