import ClauseForm.Proofs.LiteralOrders

/-!
Finding literals in collections.

What is found is always right: `getElem?_of_indexOf?`.  Nothing that occurs is missed if the literals
are in the order of their collection, repetitions or not: `InOrder.isSome_indexOf?_iff`.
-/

namespace ClauseForm

namespace LiteralOrder

variable {k l : Int}

theorem compareByIndex_eq_lt_iff :
    compareByIndex k l = .lt ↔ k.natAbs < l.natAbs ∨ k.natAbs = l.natAbs ∧ k < l := by
  rw [compareByIndex, Ordering.then_eq_lt, compare_lt_iff_lt, compare_eq_iff_eq, compare_lt_iff_lt]

theorem compareByIndex_eq_gt_iff :
    compareByIndex k l = .gt ↔ l.natAbs < k.natAbs ∨ k.natAbs = l.natAbs ∧ l < k := by
  rw [compareByIndex, Ordering.then_eq_gt, compare_gt_iff_gt, compare_eq_iff_eq, compare_gt_iff_gt]

theorem eq_of_compareByIndex_eq (h : compareByIndex k l = .eq) : k = l := by
  rw [compareByIndex, Ordering.then_eq_eq] at h
  exact Std.LawfulEqOrd.eq_of_compare h.2

theorem compareByIndex_self (l : Int) : compareByIndex l l = .eq := by
  rw [compareByIndex, Ordering.then_eq_eq]
  exact ⟨compare_eq_iff_eq.mpr rfl, compare_eq_iff_eq.mpr rfl⟩

end LiteralOrder

namespace Literals

variable {o : LiteralOrder} {c : Literals o} {ls : List Int} {l : Int} {i : Nat}

theorem eq_of_search {xs : Array Int} {probe : Int → Ordering}
    (hprobe : ∀ a, probe a = .eq → a = l) (h : search xs probe = some i) :
    xs[i]? = some l := by
  obtain ⟨-, -, found⟩ := probe_of_searchBetween h
  obtain ⟨a, ha, equal⟩ := Option.map_eq_some_iff.mp found
  rw [ha, hprobe a equal]

/-- Where a literal is said to be, there it is. -/
theorem getElem?_of_indexOf? (h : c.indexOf? l = some i) : c.toList[i]? = some l := by
  rw [toList, Array.getElem?_toList]
  cases o with
  | asGiven =>
      obtain ⟨as⟩ := c
      obtain ⟨as⟩ := as
      rw [indexOf?, List.idxOf?_toArray, List.idxOf?_eq_some_iff] at h
      obtain ⟨hi, equal, -⟩ := h
      rw [List.getElem?_toArray, List.getElem?_eq_getElem hi, equal]
  | byValue => exact eq_of_search (fun a => Std.LawfulEqOrd.eq_of_compare) h
  | byIndex => exact eq_of_search (fun a => LiteralOrder.eq_of_compareByIndex_eq) h

theorem mem_of_contains (h : c.contains l = true) : l ∈ c.toList := by
  obtain ⟨i, hi⟩ := Option.isSome_iff_exists.mp h
  exact List.mem_of_getElem? (getElem?_of_indexOf? hi)

/-- Elements in order are ordered along every probe that respects the order. -/
theorem ordered_of_pairwise {R : Int → Int → Prop} {xs : Array Int} {probe : Int → Ordering}
    (hxs : xs.toList.Pairwise R)
    (hprobe : ∀ a b, R a b → (probe b = .lt → probe a = .lt) ∧ (probe a = .gt → probe b = .gt)) :
    Ordered xs probe := by
  intro i j a b hij ha hb
  rcases Nat.lt_or_eq_of_le hij with hless | rfl
  · rw [← Array.getElem?_toList] at ha hb
    obtain ⟨hi, rfl⟩ := List.getElem?_eq_some_iff.mp ha
    obtain ⟨hj, rfl⟩ := List.getElem?_eq_some_iff.mp hb
    exact hprobe _ _ (List.pairwise_iff_getElem.mp hxs i j hi hj hless)
  · obtain rfl : a = b := Option.some.inj (ha.symm.trans hb)
    exact ⟨id, id⟩

/-- Among literals in order, a literal is not found only if it does not occur. -/
theorem InOrder.not_mem_of_indexOf? (hc : c.InOrder) (h : c.indexOf? l = none) :
    l ∉ c.toList := by
  intro hl
  cases o with
  | asGiven =>
      obtain ⟨⟨ls⟩⟩ := c
      rw [indexOf?, List.idxOf?_toArray, List.idxOf?_eq_none_iff] at h
      exact h hl
  | byValue =>
      have hordered : Ordered c.toArray fun k => compare k l := by
        refine ordered_of_pairwise hc fun a b hab => ?_
        rw [compare_lt_iff_lt, compare_lt_iff_lt, compare_gt_iff_gt, compare_gt_iff_gt]
        exact ⟨Int.lt_of_le_of_lt hab, fun hla => Int.lt_of_lt_of_le hla hab⟩
      rw [indexOf?, search_eq_none_iff hordered] at h
      exact h l (Array.mem_toList_iff.mp hl) (compare_eq_iff_eq.mpr rfl)
  | byIndex =>
      have hordered : Ordered c.toArray fun k => LiteralOrder.compareByIndex k l := by
        refine ordered_of_pairwise hc fun a b hab => ?_
        simp only [LiteralOrder.compareByIndex_eq_lt_iff, LiteralOrder.compareByIndex_eq_gt_iff,
          LiteralOrder.Precedes] at hab ⊢
        omega
      rw [indexOf?, search_eq_none_iff hordered] at h
      exact h l (Array.mem_toList_iff.mp hl) (LiteralOrder.compareByIndex_self l)

/-- Among literals in order, exactly those that occur are found. -/
theorem InOrder.isSome_indexOf?_iff (hc : c.InOrder) :
    (c.indexOf? l).isSome = true ↔ l ∈ c.toList := by
  refine ⟨mem_of_contains, fun hl => ?_⟩
  rw [Option.isSome_iff_ne_none]
  exact fun hnone => hc.not_mem_of_indexOf? hnone hl

theorem InOrder.contains_iff (hc : c.InOrder) : c.contains l = true ↔ l ∈ c.toList :=
  hc.isSome_indexOf?_iff

theorem InOrder.containsAll_iff (hc : c.InOrder) :
    c.containsAll ls = true ↔ ∀ l ∈ ls, l ∈ c.toList := by
  simp only [containsAll, List.all_eq_true, hc.contains_iff]

theorem InOrder.containsAny_iff (hc : c.InOrder) :
    c.containsAny ls = true ↔ ∃ l ∈ ls, l ∈ c.toList := by
  simp only [containsAny, List.any_eq_true, hc.contains_iff]

theorem InOrder.containsIndex_iff (hc : c.InOrder) :
    c.containsIndex l = true ↔ l ∈ c.toList ∨ -l ∈ c.toList := by
  rw [containsIndex, Bool.or_eq_true, hc.contains_iff, hc.contains_iff]

end Literals

namespace Solution

variable {s : Solution} {i : Int}

/-- In a solution the literals are searched by their indices alone. -/
theorem ordered_natAbs (hs : Literals.InOrder s) (i : Int) :
    Literals.Ordered s.toArray fun l => compare l.natAbs i.natAbs := by
  refine Literals.ordered_of_pairwise hs fun a b hab => ?_
  simp only [compare_lt_iff_lt, compare_gt_iff_gt, LiteralOrder.Precedes] at hab ⊢
  omega

/-- The truth value of an index is the sign of its literal, if it has one sign at most. -/
theorem valueOf?_eq (hs : Literals.InOrder s) (hnonzero : ∀ l ∈ s.toList, l ≠ 0)
    (hkept : ∀ l ∈ s.toList, -l ∉ s.toList) :
    s.valueOf? i =
      if (i.natAbs : Int) ∈ s.toList then some true
      else if -(i.natAbs : Int) ∈ s.toList then some false
      else none := by
  rw [valueOf?]
  cases hfound : Literals.search s.toArray fun l => compare l.natAbs i.natAbs with
  | none =>
      rw [Literals.search_eq_none_iff (ordered_natAbs hs i)] at hfound
      have habsent : ∀ l : Int, l.natAbs = i.natAbs → l ∉ s.toList := fun l hl hmem =>
        hfound l (Array.mem_toList_iff.mp hmem) (compare_eq_iff_eq.mpr hl)
      rw [if_neg (habsent _ (by omega)), if_neg (habsent _ (by omega))]
      rfl
  | some p =>
      obtain ⟨-, -, hprobe⟩ := Literals.probe_of_searchBetween hfound
      obtain ⟨l, hl, hequal⟩ := Option.map_eq_some_iff.mp hprobe
      have hmem : l ∈ s.toList := Array.mem_toList_iff.mpr (Array.mem_of_getElem? hl)
      have hindex : l.natAbs = i.natAbs := compare_eq_iff_eq.mp hequal
      change (s.toArray[p]? >>= fun literal => some (decide (0 < literal))) = _
      rw [hl, Option.bind_eq_bind, Option.bind_some]
      rcases Int.lt_or_gt_of_ne (hnonzero l hmem) with hnegative | hpositive
      · obtain rfl : l = -(i.natAbs : Int) := by omega
        have hother : (i.natAbs : Int) ∉ s.toList := by simpa using hkept _ hmem
        rw [if_neg hother, if_pos hmem, decide_eq_false (Int.not_lt.mpr (Int.le_of_lt hnegative))]
      · obtain rfl : l = (i.natAbs : Int) := by omega
        rw [if_pos hmem, decide_eq_true hpositive]

end Solution

end ClauseForm
