import ClauseForm.Proofs.Expansion
import ClauseForm.Proofs.FirstOccurrences

/-!
The order in which an expansion numbers atoms.

An atom and its opposite share a number, so the table lists the positive forms of the atoms of a
formula, each where it or its opposite is first met.  `place_lt_place` reads this off the literals:
the smaller index stands for the atom that occurs earlier.
-/

namespace ClauseForm

namespace Expression

/-- The positive atom among an atom and its opposite. -/
def positiveForm (a : Expression) : Expression := if a.symbol.isPositive then a else a.opposite

/-- Where an atom first occurs among the atoms of an expression, in itself or as its opposite. -/
def place (e a : Expression) : Nat := e.atoms.findIdx fun b => b == a || b == a.opposite

variable {form : NormalForm} {e a b : Expression} {t u : Atoms}

namespace ProperAtom

theorem opposite_inj (ha : ProperAtom a) (hb : ProperAtom b) (h : a.opposite = b.opposite) :
    a = b := by
  rw [← ha.opposite_opposite, h, hb.opposite_opposite]

/-- Two atoms have the same positive form if they are the same or opposites. -/
theorem positiveForm_eq_iff (ha : ProperAtom a) (hb : ProperAtom b) :
    b.positiveForm = a.positiveForm ↔ b = a ∨ b = a.opposite := by
  unfold positiveForm
  by_cases hsame : b.symbol.isPositive = a.symbol.isPositive
  · have hne : b ≠ a.opposite := by
      rintro rfl
      rw [ha.isPositive_opposite] at hsame
      simp at hsame
    rw [hsame, or_iff_left hne]
    split
    · exact Iff.rfl
    · exact ⟨hb.opposite_inj ha, congrArg Expression.opposite⟩
  · have hne : b ≠ a := fun h => hsame (h ▸ rfl)
    have hsign : b.symbol.isPositive = !a.symbol.isPositive := Bool.eq_not.mpr hsame
    rw [hsign, or_iff_right hne]
    cases a.symbol.isPositive with
    | false => exact Iff.rfl
    | true =>
        refine ⟨fun h => hb.opposite_inj ha.opposite ?_, ?_⟩
        · rw [ha.opposite_opposite]
          exact h
        · rintro rfl
          exact ha.opposite_opposite

end ProperAtom

/-- The place of an atom is that of its positive form among the positive forms. -/
theorem findIdx_eq_idxOf_positiveForm (ha : ProperAtom a) {as : List Expression}
    (has : ∀ b ∈ as, ProperAtom b) :
    as.findIdx (fun b => b == a || b == a.opposite) =
      (as.map positiveForm).idxOf a.positiveForm := by
  induction as with
  | nil => rfl
  | cons b as ih =>
      obtain ⟨hb, hrest⟩ := List.forall_mem_cons.mp has
      have hfound : (b == a || b == a.opposite) = (b.positiveForm == a.positiveForm) := by
        rw [Bool.eq_iff_iff]
        simpa using (ha.positiveForm_eq_iff hb).symm
      rw [List.map_cons, List.findIdx_cons, List.idxOf_cons, hfound, ih hrest]

end Expression

namespace Atoms

open Expression

variable {t : Atoms}

theorem toList_number (t : Atoms) (a : Expression) :
    (t.number a).2.atoms.toList = (t.atoms.toList ++ [a]).eraseDups := by
  rw [eraseDups_concat, eraseDups_eq_self t.nodup]
  rcases t.number_cases a with ⟨i, hplace, hnumber⟩ | ⟨hnew, u, hnumber, hlist⟩
  · rw [hnumber, if_pos (List.mem_of_getElem? hplace)]
  · rw [hnumber, if_neg hnew, hlist]

/-- An atom adds its positive form to the table, unless that is there already. -/
theorem toList_literalOf (t : Atoms) (a : Expression) :
    (t.literalOf a).2.atoms.toList = (t.atoms.toList ++ [a.positiveForm]).eraseDups := by
  rw [← toList_number, literalOf, positiveForm]
  split <;> rfl

/-- The table holds the positive form of the atom of a literal at the index of the literal. -/
theorem Valid.getElem?_positiveForm (ht : t.Valid) {l : Int} (hl : t.Knows l) :
    t.atoms.toList[l.natAbs - 1]? = some (t.atomOf l).positiveForm := by
  obtain ⟨b, hb, hatom⟩ := hl.exists_atom
  have hmem := List.mem_of_getElem? hb
  have proper := ht.proper b hmem
  have hpositive := ht.positive b hmem
  rw [hb, hatom]
  split
  · rw [positiveForm, if_pos hpositive]
  · rw [positiveForm, proper.isPositive_opposite, hpositive, proper.opposite_opposite]
    rfl

end Atoms

namespace Expression

variable {form : NormalForm} {e a b : Expression} {t u : Atoms}

theorem toList_expandAll {es : List Expression}
    (hes : ∀ e ∈ es, ∀ t : Atoms, (expand form e t).2.atoms.toList =
      (t.atoms.toList ++ e.atoms.map positiveForm).eraseDups) (t : Atoms) :
    (expandAll form es t).2.atoms.toList =
      (t.atoms.toList ++ (es.flatMap atoms).map positiveForm).eraseDups := by
  induction es generalizing t with
  | nil => simp [expandAll_nil, eraseDups_eq_self t.nodup]
  | cons e es ih =>
      rw [expandAll_cons, ih (fun f hf => hes f (List.mem_cons_of_mem _ hf)),
        hes e List.mem_cons_self t, eraseDups_append_right, List.flatMap_cons, List.map_append,
        List.append_assoc]

/-- An expansion adds the positive forms of the atoms to the table, in the order in which they first
occur. -/
theorem toList_expand (he : NnfTree e) (t : Atoms) :
    (expand form e t).2.atoms.toList =
      (t.atoms.toList ++ e.atoms.map positiveForm).eraseDups := by
  induction he generalizing t with
  | verum =>
      rw [expand_verum]
      simp [atoms_node, Symbol.isProper, eraseDups_eq_self t.nodup]
  | falsum =>
      rw [expand_falsum]
      simp [atoms_node, Symbol.isProper, eraseDups_eq_self t.nodup]
  | atom ha =>
      rw [expand_atom ha, ha.atoms_eq]
      exact Atoms.toList_literalOf t _
  | and hes ih =>
      rw [expand_and, atoms_node]
      exact toList_expandAll ih t
  | or hes ih =>
      rw [expand_or, atoms_node]
      exact toList_expandAll ih t

/-- Of two literals over the atoms of a formula, the one with the smaller index stands for the atom
that occurs earlier. -/
theorem place_lt_place (he : NnfTree e) {k l : Int}
    (hk : (expand form e .empty).2.Knows k) (hl : (expand form e .empty).2.Knows l)
    (h : k.natAbs < l.natAbs) :
    e.place ((expand form e .empty).2.atomOf k) < e.place ((expand form e .empty).2.atomOf l) := by
  have expanded : Expanded form .empty (expand form e .empty).2 e (expand form e .empty).1 :=
    expanded_of_nnfTree he Atoms.valid_empty
  have hvalid := expanded.valid
  have hlist : (expand form e .empty).2.atoms.toList =
      (Atoms.empty.atoms.toList ++ e.atoms.map positiveForm).eraseDups :=
    toList_expand he .empty
  have hproper : ∀ a ∈ e.atoms, ProperAtom a := fun a => properAtom_of_mem_atoms he.formulaTree
  have hfirst := hvalid.getElem?_positiveForm hk
  have hsecond := hvalid.getElem?_positiveForm hl
  rw [hlist] at hfirst hsecond
  obtain ⟨hi, hfirst⟩ := List.getElem?_eq_some_iff.mp hfirst
  obtain ⟨hj, hsecond⟩ := List.getElem?_eq_some_iff.mp hsecond
  have hindex : k.natAbs - 1 < l.natAbs - 1 := by
    have := hk.1
    omega
  have hless := List.pairwise_iff_getElem.mp
    (pairwise_idxOf_eraseDups (e.atoms.map positiveForm)) _ _ hi hj hindex
  rw [place, place, findIdx_eq_idxOf_positiveForm (hvalid.properAtom_atomOf hk) hproper,
    findIdx_eq_idxOf_positiveForm (hvalid.properAtom_atomOf hl) hproper, ← hfirst, ← hsecond]
  exact hless

end Expression

end ClauseForm
