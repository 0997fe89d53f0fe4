import ClauseForm.Literals
import Mathlib.Data.List.Sort

/-!
The orders of the kinds of collections.

A clause or a solution depends on nothing but the literals that it is made from, since literals that
may stand either way round are the same.  An assignment keeps its literals as they are.
-/

namespace ClauseForm

variable {o : LiteralOrder} {ls ks : List Int} {j k l : Int}

namespace LiteralOrder

/-- One literal may stand before another one in a collection. -/
def Precedes : LiteralOrder → Int → Int → Prop
  | asGiven, _, _ => True
  | byValue, k, l => k ≤ l
  | byIndex, k, l => k.natAbs < l.natAbs ∨ k.natAbs = l.natAbs ∧ k ≤ l

instance (o : LiteralOrder) : DecidableRel o.Precedes := fun k l =>
  match o with
  | asGiven => .isTrue trivial
  | byValue => inferInstanceAs (Decidable (k ≤ l))
  | byIndex => inferInstanceAs (Decidable (k.natAbs < l.natAbs ∨ k.natAbs = l.natAbs ∧ k ≤ l))

theorem isLE_compareByIndex_iff : (compareByIndex k l).isLE = true ↔ byIndex.Precedes k l := by
  simp [compareByIndex, Precedes, Ordering.isLE_then_iff_or, compare_lt_iff_lt,
    Std.isLE_compare]

theorem Precedes.trans (hjk : o.Precedes j k) (hkl : o.Precedes k l) : o.Precedes j l := by
  cases o with
  | asGiven => trivial
  | byValue => exact Int.le_trans hjk hkl
  | byIndex =>
      simp only [Precedes] at *
      omega

theorem precedes_total (o : LiteralOrder) (k l : Int) : o.Precedes k l ∨ o.Precedes l k := by
  cases o with
  | asGiven => exact Or.inl trivial
  | byValue => exact Int.le_total k l
  | byIndex =>
      simp only [Precedes]
      omega

theorem Precedes.antisymm (ho : o ≠ asGiven) (hkl : o.Precedes k l) (hlk : o.Precedes l k) :
    k = l := by
  cases o with
  | asGiven => contradiction
  | byValue => exact Int.le_antisymm hkl hlk
  | byIndex =>
      simp only [Precedes] at *
      omega

/-- Arranging puts literals into the order of the kind. -/
theorem pairwise_arrange (o : LiteralOrder) (ls : List Int) :
    (o.arrange ls).Pairwise o.Precedes := by
  have sorted : ∀ le : Int → Int → Bool, (∀ k l, le k l = true ↔ o.Precedes k l) →
      (ls.mergeSort le).Pairwise o.Precedes := by
    intro le hle
    refine (List.pairwise_mergeSort ?_ ?_ ls).imp fun h => (hle ..).mp h
    · exact fun j k l hjk hkl => (hle ..).mpr (((hle ..).mp hjk).trans ((hle ..).mp hkl))
    · intro k l
      rw [Bool.or_eq_true, hle, hle]
      exact o.precedes_total k l
  cases o with
  | asGiven => exact List.pairwise_of_forall fun _ _ => trivial
  | byValue => exact sorted _ fun k l => decide_eq_true_iff
  | byIndex => exact sorted _ fun k l => isLE_compareByIndex_iff

/-- In an ordered collection it does not matter how the literals were given. -/
theorem arrange_of_perm (ho : o ≠ asGiven) (h : ls.Perm ks) : o.arrange ls = o.arrange ks :=
  (((o.arrange_perm ls).trans h).trans (o.arrange_perm ks).symm).eq_of_pairwise
    (fun _ _ _ _ => Precedes.antisymm ho) (o.pairwise_arrange ls) (o.pairwise_arrange ks)

/-- The order in which literals are given counts only where it is kept. -/
theorem arrange_congr (h : ls.Perm ks) (hgiven : o = asGiven → ls = ks) :
    o.arrange ls = o.arrange ks := by
  by_cases ho : o = asGiven
  · rw [hgiven ho]
  · exact arrange_of_perm ho h

/-- Literals in order stay as they are. -/
theorem arrange_eq_self (h : ls.Pairwise o.Precedes) : o.arrange ls = ls := by
  by_cases ho : o = asGiven
  · subst ho
    rfl
  · exact (o.arrange_perm ls).eq_of_pairwise (fun _ _ _ _ => Precedes.antisymm ho)
      (o.pairwise_arrange ls) h

/-- Literals that are replaced one by one need not be arranged before. -/
theorem arrange_map_arrange (o : LiteralOrder) (f : Int → Int) (ls : List Int) :
    o.arrange ((o.arrange ls).map f) = o.arrange (ls.map f) :=
  arrange_congr ((o.arrange_perm ls).map f) fun ho => by rw [ho, arrange]

end LiteralOrder

namespace Literals

/-- The literals are in the order of the collection. -/
def InOrder (c : Literals o) : Prop := c.toList.Pairwise o.Precedes

instance (c : Literals o) : Decidable c.InOrder :=
  inferInstanceAs (Decidable (c.toList.Pairwise o.Precedes))

theorem inOrder_arranged (ls : List Int) : (arranged ls : Literals o).InOrder :=
  o.pairwise_arrange ls

/-- Literals in order are what every other order of them is put into. -/
theorem arranged_eq_mk (ho : o ≠ .asGiven) (h : ls.Perm ks) (hks : ks.Pairwise o.Precedes) :
    (arranged ls : Literals o) = ⟨ks.toArray⟩ := by
  rw [arranged, LiteralOrder.arrange_of_perm ho h, LiteralOrder.arrange_eq_self hks]

theorem InOrder.arranged_toList {c : Literals o} (hc : c.InOrder) : arranged c.toList = c := by
  rw [arranged, LiteralOrder.arrange_eq_self hc]
  rfl

end Literals

end ClauseForm
