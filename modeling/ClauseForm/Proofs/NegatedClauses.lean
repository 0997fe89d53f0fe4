import ClauseForm.Proofs.Canonical
import ClauseForm.Proofs.UsableLiterals

/-!
Clauses of negated literals.

Merging clauses does not tell the two signs of an index apart, so the products of negated lists are
the negated products, and they are reported alike.  The signs do count in the order of a clause,
which is by value and turns around; only the order by index is kept.
-/

namespace ClauseForm

namespace Literals

variable {o : LiteralOrder} {c : Literals o} {l : Int}

/-- Negation swaps the sign of each literal and adds or drops none. -/
theorem toList_negate_perm (c : Literals o) : c.negate.toList.Perm (c.toList.map fun l => -l) := by
  cases o with
  | asGiven => exact .refl _
  | byValue =>
      rw [negate, toList, Array.toList_map, Array.toList_reverse]
      exact (List.reverse_perm _).map _
  | byIndex => exact LiteralOrder.arrange_perm .byIndex _

theorem mem_negate : l ∈ c.negate.toList ↔ -l ∈ c.toList := by
  rw [c.toList_negate_perm.mem_iff, List.mem_map]
  constructor
  · rintro ⟨k, hk, rfl⟩
    rwa [Int.neg_neg]
  · exact fun h => ⟨-l, h, Int.neg_neg l⟩

theorem neg_mem_negate : -l ∈ c.negate.toList ↔ l ∈ c.toList := by
  rw [mem_negate, Int.neg_neg]

theorem size_negate (c : Literals o) : c.negate.size = c.size := by
  have hlength := c.toList_negate_perm.length_eq
  rwa [List.length_map] at hlength

theorem isEmpty_eq_decide_size (c : Literals o) : c.isEmpty = decide (c.size = 0) := rfl

theorem isEmpty_negate (c : Literals o) : c.negate.isEmpty = c.isEmpty := by
  rw [isEmpty_eq_decide_size, size_negate, isEmpty_eq_decide_size]

/-- Negation keeps the order of every kind: by value because the literals of a clause are taken from
behind. -/
theorem InOrder.negate (hc : c.InOrder) : c.negate.InOrder := by
  cases o with
  | asGiven => exact inOrder_arranged _
  | byValue =>
      have hbehind : (c.toList.reverse.map fun l => -l).Pairwise (· ≤ ·) := by
        rw [List.pairwise_map, List.pairwise_reverse]
        exact hc.imp fun hle => Int.neg_le_neg hle
      rwa [InOrder, Literals.negate, toList, Array.toList_map, Array.toList_reverse]
  | byIndex => exact inOrder_arranged _

/-- Taking the literals of a clause from behind and sorting them again come to the same. -/
theorem InOrder.negate_eq_arranged (hc : c.InOrder) :
    c.negate = arranged (c.toList.map fun l => -l) := by
  have hgiven : o = .asGiven → c.negate.toList = c.toList.map fun l => -l := fun ho => by
    subst ho
    rfl
  rw [← hc.negate.arranged_toList, arranged, arranged,
    LiteralOrder.arrange_congr c.toList_negate_perm hgiven]

theorem Proper.negate (hc : c.Proper) : c.negate.Proper :=
  ⟨hc.inOrder.negate, fun l hl => by
    have hopposite := (hc.usable (-l) (mem_negate.mp hl)).neg
    rwa [Int.neg_neg] at hopposite⟩

end Literals

namespace Clause

open Literals

variable {c d : Clause} {ls : List Int} {lefts rights : List Clause}

/-- An index occurs in both signs as well after all signs are swapped. -/
theorem opposed_map_neg : Opposed (ls.map fun l => -l) ↔ Opposed ls := by
  constructor
  · rintro ⟨_, hk, hpositive, hopposite⟩
    obtain ⟨k, hk, rfl⟩ := List.mem_map.mp hk
    obtain ⟨l, hl, hsame⟩ := List.mem_map.mp hopposite
    obtain rfl : l = -k := by omega
    exact ⟨-k, hl, hpositive, by rwa [Int.neg_neg]⟩
  · rintro ⟨l, hl, hpositive, hopposite⟩
    refine ⟨l, List.mem_map.mpr ⟨-l, hopposite, Int.neg_neg l⟩, hpositive, ?_⟩
    exact List.mem_map_of_mem hl

theorem toList_negate (c : Clause) :
    (Literals.negate c).toList = c.toList.reverse.map fun l => -l := by
  rw [Literals.negate, toList, Array.toList_map, Array.toList_reverse]
  rfl

theorem Increasing.negate (hc : c.Increasing) : Increasing (Literals.negate c) := by
  rw [Increasing, toList_negate, List.pairwise_map, List.pairwise_reverse]
  exact hc.imp fun hless => Int.neg_lt_neg hless

/-- The signs and the order of a clause turn back when they are turned again. -/
theorem negate_negate (c : Clause) : Literals.negate (Literals.negate c) = c := by
  have hback : (fun l : Int => -l) ∘ (fun l => -l) = id := funext Int.neg_neg
  change (⟨(c.toArray.reverse.map fun l => -l).reverse.map fun l => -l⟩ : Clause) = c
  rw [← Array.map_reverse, Array.reverse_reverse, Array.map_map, hback, Array.map_id]

theorem negate_injective : Function.Injective (Literals.negate : Clause → Clause) :=
  Function.LeftInverse.injective negate_negate

theorem Clean.negate (hc : c.Clean) : Clean (Literals.negate c) where
  increasing := hc.increasing.negate
  unopposed hopposed := hc.unopposed <| opposed_map_neg.mp <|
    hopposed.mono fun l hl => List.mem_map.mpr ⟨-l, mem_negate.mp hl, Int.neg_neg l⟩

/-- By index, the literals stand in the same order in both signs. -/
theorem Clean.byIndex_negate (hc : c.Clean) (hnonzero : ∀ l ∈ c.toList, l ≠ 0) :
    byIndex (Literals.negate c) = c.byIndex.map fun l => -l := by
  have hnegated : ∀ l ∈ (Literals.negate c).toList, l ≠ 0 := by
    intro l hl hzero
    exact hnonzero (-l) (mem_negate.mp hl) (by omega)
  have hsame : (c.byIndex.map fun l => -l).Pairwise fun a b => a.natAbs < b.natAbs := by
    rw [List.pairwise_map]
    simpa using hc.pairwise_byIndex hnonzero
  have hperm : (byIndex (Literals.negate c)).Perm (c.byIndex.map fun l => -l) :=
    (List.mergeSort_perm (Literals.negate c).toList _).trans <|
      c.toList_negate_perm.trans <| (List.mergeSort_perm c.toList _).symm.map _
  exact hperm.eq_of_pairwise (fun a b _ _ hab hba => absurd hba (Nat.lt_asymm hab))
    (hc.negate.pairwise_byIndex hnegated) hsame

theorem reduced?_map_neg (ls : List Int) :
    reduced? (.arranged (ls.map fun l => -l)) = (reduced? (.arranged ls)).map Literals.negate := by
  cases hreduced : reduced? (.arranged ls) with
  | none => exact reduced?_eq_none_iff.mpr (opposed_map_neg.mpr (reduced?_eq_none_iff.mp hreduced))
  | some c =>
      obtain ⟨hkept, hincreasing, hmem⟩ := reduced?_eq_some_iff.mp hreduced
      refine reduced?_eq_some_iff.mpr ⟨mt opposed_map_neg.mp hkept, hincreasing.negate, ?_⟩
      intro l
      rw [mem_negate, hmem, List.mem_map]
      constructor
      · exact fun h => ⟨-l, h, Int.neg_neg l⟩
      · rintro ⟨k, hk, rfl⟩
        rwa [Int.neg_neg]

theorem merged?_negate (left right : Clause) :
    merged? left.negate right.negate = (merged? left right).map Literals.negate := by
  rw [merged?, merged?, ← reduced?_map_neg]
  apply reduced?_congr
  intro l
  rw [List.map_append, List.mem_append, List.mem_append]
  exact or_congr left.toList_negate_perm.mem_iff right.toList_negate_perm.mem_iff

/-- The clauses that are merged from two lists are different in both signs alike. -/
theorem product_negate (lefts rights : List Clause) :
    product (lefts.map Literals.negate) (rights.map Literals.negate) =
      (product lefts rights).map Literals.negate := by
  have hmerged : ∀ left : Clause,
      (rights.map Literals.negate).filterMap (merged? left.negate) =
        (rights.filterMap (merged? left)).map Literals.negate := by
    intro left
    rw [List.filterMap_map, List.map_filterMap]
    simp only [Function.comp_def, merged?_negate]
  rw [product, product, List.flatMap_map]
  simp only [hmerged]
  rw [← List.map_flatMap]
  exact eraseDups_map_of_injective fun c _ d _ hequal => negate_injective hequal

theorem negate_arranged (ls : List Int) :
    Literals.negate (.arranged ls : Clause) = .arranged (ls.map fun l => -l) := by
  rw [(inOrder_arranged ls).negate_eq_arranged]
  exact arranged_of_perm ((LiteralOrder.arrange_perm .byValue ls).map _)

theorem negate_empty : (Literals.empty : Clause).negate = Literals.empty := by
  simp [Literals.negate, Literals.empty]

theorem products_negate (factors : List (List Clause)) :
    products (factors.map (List.map Literals.negate)) =
      (products factors).map Literals.negate := by
  cases factors with
  | nil => exact (List.singleton_inj.mpr negate_empty).symm
  | cons factor factors =>
      rw [List.map_cons, products, products]
      induction factors generalizing factor with
      | nil => rfl
      | cons next factors ih =>
          rw [List.map_cons, List.foldl_cons, List.foldl_cons, product_negate, ih]

theorem clauseReports_negate (clauses : List Clause) :
    clauseReports (clauses.map Literals.negate) = clauseReports clauses := by
  simp only [clauseReports, List.map_map, Function.comp_def, size_negate]

/-- Products of negated clauses are reported like those of the clauses. -/
theorem productsReports_negate (factors : List (List Clause)) :
    productsReports (factors.map (List.map Literals.negate)) = productsReports factors := by
  cases factors with
  | nil => rfl
  | cons factor factors =>
      rw [List.map_cons, productsReports, productsReports]
      induction factors generalizing factor with
      | nil => rfl
      | cons next factors ih =>
          rw [List.map_cons, foldReports, foldReports, product_negate, ih, productReports,
            productReports, product_negate, clauseReports_negate]

end Clause

end ClauseForm
