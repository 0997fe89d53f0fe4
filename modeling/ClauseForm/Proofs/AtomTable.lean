import ClauseForm.NormalForm.Atoms
import ClauseForm.Proofs.ProperAtom

/-!
The table of atoms.

A table holds positive atoms, each once, and only grows (`number_cases`).  So a literal stands for
the same atom in every later table, and its negation for the opposite atom.
-/

namespace ClauseForm

open Expression

theorem Expression.ProperAtom.isPositive_opposite {a : Expression} (ha : ProperAtom a) :
    a.opposite.symbol.isPositive = !a.symbol.isPositive := by
  cases ha with
  | literal => rfl
  | compare c => cases c <;> rfl

namespace Atoms

/-- The atoms of a table are proper and positive. -/
structure Valid (t : Atoms) : Prop where
  proper : ∀ a ∈ t.atoms.toList, ProperAtom a
  positive : ∀ a ∈ t.atoms.toList, a.symbol.isPositive = true

/-- A later table keeps the atoms of an earlier one at their numbers. -/
def Extends (later earlier : Atoms) : Prop := earlier.atoms.toList <+: later.atoms.toList

/-- A literal with an atom in the table. -/
def Knows (t : Atoms) (l : Int) : Prop := l ≠ 0 ∧ l.natAbs ≤ t.atoms.size

/-- The truth value of a literal under an interpretation of its atom. -/
def truth (t : Atoms) (ι : Interpretation) (l : Int) : Bool := truthIn ι (t.atomOf l)

variable {t u w : Atoms} {l : Int} {a : Expression}

/-! ### The list and the table behind it -/

/-- The table has the place of an atom in the list, counted from 1. -/
theorem getElem?_numbers (t : Atoms) (a : Expression) :
    t.numbers[a]? = (t.atoms.toList.idxOf? a).map (· + 1) := by
  cases h : t.atoms.toList.idxOf? a with
  | some i =>
      obtain ⟨hi, hequal, -⟩ := List.idxOf?_eq_some_iff.mp h
      refine (t.inStep a (i + 1)).mpr ⟨Nat.succ_pos i, ?_⟩
      rw [Nat.add_sub_cancel, ← Array.getElem?_toList, List.getElem?_eq_getElem hi, hequal]
  | none =>
      have hnew : a ∉ t.atoms.toList := List.idxOf?_eq_none_iff.mp h
      refine Option.eq_none_iff_forall_ne_some.mpr fun n hn => hnew ?_
      obtain ⟨-, hplace⟩ := (t.inStep a n).mp hn
      exact List.mem_of_getElem? (Array.getElem?_toList.trans hplace)

/-- No atom is listed twice, since the table has one number for it. -/
theorem nodup (t : Atoms) : t.atoms.toList.Nodup := by
  refine List.pairwise_iff_getElem.mpr fun i j hi hj hij hequal => ?_
  have hfirst : t.atoms[i]? = some t.atoms.toList[j] := by
    rw [← hequal, ← Array.getElem?_toList, List.getElem?_eq_getElem hi]
  have hsecond : t.atoms[j]? = some t.atoms.toList[j] := by
    rw [← Array.getElem?_toList, List.getElem?_eq_getElem hj]
  have hnumbers := ((t.inStep _ (i + 1)).mpr ⟨Nat.succ_pos i, hfirst⟩).symm.trans
    ((t.inStep _ (j + 1)).mpr ⟨Nat.succ_pos j, hsecond⟩)
  have hsame : i = j := Nat.succ.inj (Option.some.inj hnumbers)
  exact Nat.ne_of_lt hij hsame

/-- An atom is numbered by its place in the list, to which a new one is added at the end. -/
theorem number_cases (t : Atoms) (a : Expression) :
    (∃ i : Nat, t.atoms.toList[i]? = some a ∧ t.number a = ((i : Int) + 1, t)) ∨
      (a ∉ t.atoms.toList ∧ ∃ u, t.number a = ((t.atoms.size : Int) + 1, u) ∧
        u.atoms.toList = t.atoms.toList ++ [a]) := by
  unfold number
  split
  · next n hn =>
      obtain ⟨hpositive, hplace⟩ := (t.inStep a n).mp hn
      have hnumber : ((n - 1 : Nat) : Int) + 1 = n := by omega
      exact Or.inl ⟨n - 1, Array.getElem?_toList.trans hplace, by rw [hnumber]⟩
  · next hnone =>
      rw [getElem?_numbers, Option.map_eq_none_iff] at hnone
      exact Or.inr ⟨List.idxOf?_eq_none_iff.mp hnone, _, rfl, Array.toList_push⟩

/-! ### Literals and their atoms -/

theorem Extends.refl (t : Atoms) : t.Extends t := List.prefix_refl _

theorem Extends.trans (hut : u.Extends t) (hwu : w.Extends u) : w.Extends t :=
  List.IsPrefix.trans hut hwu

theorem Extends.knows (hut : u.Extends t) (hl : t.Knows l) : u.Knows l := by
  have := hut.length_le
  simp only [Array.length_toList] at this
  exact ⟨hl.1, Nat.le_trans hl.2 this⟩

theorem Knows.neg (hl : t.Knows l) : t.Knows (-l) := by
  rw [Knows, Int.natAbs_neg]
  exact ⟨by simpa using hl.1, hl.2⟩

theorem valid_empty : empty.Valid := by
  constructor <;> simp [empty]

/-- A known literal stands for an atom of the table or for the opposite of one. -/
theorem Knows.exists_atom (hl : t.Knows l) :
    ∃ b, t.atoms.toList[l.natAbs - 1]? = some b ∧
      t.atomOf l = if 0 < l then b else b.opposite := by
  obtain ⟨hnonzero, hbound⟩ := hl
  have hinside : l.natAbs - 1 < t.atoms.size := by omega
  refine ⟨t.atoms[l.natAbs - 1], by simp [hinside], ?_⟩
  simp [atomOf, atomOf?, hnonzero, hinside]

/-- Exactly the known literals can be looked up. -/
theorem atomOf?_eq_some_iff : t.atomOf? l = some a ↔ t.Knows l ∧ t.atomOf l = a := by
  constructor
  · intro h
    refine ⟨?_, by rw [atomOf, h, Option.getD_some]⟩
    unfold atomOf? at h
    split at h
    · contradiction
    · next hnonzero =>
        obtain ⟨b, hb, -⟩ := Option.map_eq_some_iff.mp h
        obtain ⟨hinside, -⟩ := Array.getElem?_eq_some_iff.mp hb
        exact ⟨hnonzero, by omega⟩
  · rintro ⟨hl, rfl⟩
    obtain ⟨b, hb, hatom⟩ := hl.exists_atom
    rw [hatom, atomOf?, if_neg hl.1, ← Array.getElem?_toList, hb, Option.map_some]

theorem Extends.atomOf_eq (hut : u.Extends t) (hl : t.Knows l) : u.atomOf l = t.atomOf l := by
  obtain ⟨b, hb, hatom⟩ := hl.exists_atom
  obtain ⟨c, hc, hlater⟩ := (hut.knows hl).exists_atom
  obtain ⟨added, hadded⟩ := hut
  have hinside := (List.getElem?_eq_some_iff.mp hb).1
  rw [← hadded, List.getElem?_append_left hinside, hb] at hc
  obtain rfl := Option.some.inj hc
  rw [hatom, hlater]

theorem Extends.truth_eq (hut : u.Extends t) (hl : t.Knows l) (ι : Interpretation) :
    u.truth ι l = t.truth ι l := by
  rw [truth, truth, hut.atomOf_eq hl]

theorem Valid.properAtom_atomOf (ht : t.Valid) (hl : t.Knows l) : ProperAtom (t.atomOf l) := by
  obtain ⟨b, hb, hatom⟩ := hl.exists_atom
  have proper := ht.proper b (List.mem_of_getElem? hb)
  by_cases hpositive : 0 < l
  · rwa [hatom, if_pos hpositive]
  · rw [hatom, if_neg hpositive]
    exact proper.opposite

/-- The negation of a literal stands for the opposite atom. -/
theorem Valid.atomOf_neg (ht : t.Valid) (hl : t.Knows l) :
    t.atomOf (-l) = (t.atomOf l).opposite := by
  obtain ⟨b, hb, hatom⟩ := hl.exists_atom
  obtain ⟨c, hc, hnegated⟩ := hl.neg.exists_atom
  rw [Int.natAbs_neg, hb] at hc
  obtain rfl := Option.some.inj hc
  have proper := ht.proper b (List.mem_of_getElem? hb)
  have hnonzero := hl.1
  rw [hatom, hnegated]
  by_cases hpositive : 0 < l
  · rw [if_neg (by omega), if_pos hpositive]
  · rw [if_pos (by omega), if_neg hpositive, proper.opposite_opposite]

/-- A literal is positive if its atom is. -/
theorem Valid.isPositive_atomOf (ht : t.Valid) (hl : t.Knows l) :
    (t.atomOf l).symbol.isPositive = decide (0 < l) := by
  obtain ⟨b, hb, hatom⟩ := hl.exists_atom
  have hmem := List.mem_of_getElem? hb
  rw [hatom]
  by_cases hpositive : 0 < l
  · rw [if_pos hpositive, ht.positive b hmem, decide_eq_true hpositive]
  · rw [if_neg hpositive, (ht.proper b hmem).isPositive_opposite, ht.positive b hmem,
      decide_eq_false hpositive, Bool.not_true]

/-- Different literals stand for different atoms. -/
theorem Valid.atomOf_injective (ht : t.Valid) {k : Int} (hk : t.Knows k) (hl : t.Knows l)
    (h : t.atomOf k = t.atomOf l) : k = l := by
  obtain ⟨b, hb, hkatom⟩ := hk.exists_atom
  obtain ⟨c, hc, hlatom⟩ := hl.exists_atom
  have hbmem := List.mem_of_getElem? hb
  have hcmem := List.mem_of_getElem? hc
  have hbproper := ht.proper b hbmem
  have hcproper := ht.proper c hcmem
  have hsign : ∀ {d e : Expression}, d ∈ t.atoms.toList → e ∈ t.atoms.toList → d ≠ e.opposite := by
    rintro d e hd he rfl
    have hpositive := ht.positive _ hd
    rw [(ht.proper e he).isPositive_opposite, ht.positive e he] at hpositive
    contradiction
  have hsame : b = c → k.natAbs = l.natAbs := by
    rintro rfl
    have hindex := (List.getElem?_inj (List.getElem?_eq_some_iff.mp hb).1 t.nodup).mp
      (hb.trans hc.symm)
    have := hk.1
    have := hl.1
    omega
  rw [hkatom, hlatom] at h
  split at h <;> split at h
  · have := hsame h
    omega
  · exact absurd h (hsign hbmem hcmem)
  · exact absurd h.symm (hsign hcmem hbmem)
  · have hequal : b = c := by
      rw [← hbproper.opposite_opposite, h, hcproper.opposite_opposite]
    have := hsame hequal
    omega

theorem Valid.truth_neg (ht : t.Valid) (hl : t.Knows l) (ι : Interpretation) :
    t.truth ι (-l) = !t.truth ι l := by
  rw [truth, ht.atomOf_neg hl, (ht.properAtom_atomOf hl).truthIn_opposite, truth]

/-- What adding an atom does to a valid table: the new table knows the literal of the atom, and has
no other new atoms than this one or its opposite. -/
structure Adds (t u : Atoms) (a : Expression) (l : Int) : Prop where
  valid : u.Valid
  extends_old : u.Extends t
  knows : u.Knows l
  atomOf_eq : u.atomOf l = a
  mem_old : ∀ b ∈ u.atoms.toList, b ∈ t.atoms.toList ∨ b = a ∨ b = a.opposite

theorem adds_number (ht : t.Valid) (ha : ProperAtom a) (hpositive : a.symbol.isPositive = true) :
    Adds t (t.number a).2 a (t.number a).1 := by
  rcases t.number_cases a with ⟨i, hplace, hnumber⟩ | ⟨hnew, u, hnumber, hlist⟩
  · rw [hnumber]
    obtain ⟨hi, -⟩ := List.getElem?_eq_some_iff.mp hplace
    have hsign : 0 < (i : Int) + 1 := by omega
    have hnatAbs : ((i : Int) + 1).natAbs - 1 = i := by omega
    have hknows : t.Knows ((i : Int) + 1) := by
      rw [Array.length_toList] at hi
      exact ⟨by omega, by omega⟩
    exact {
      valid := ht
      extends_old := .refl _
      knows := hknows
      atomOf_eq := by
        obtain ⟨b, hb, hatom⟩ := hknows.exists_atom
        rw [hnatAbs, hplace] at hb
        rw [hatom, if_pos hsign, Option.some.inj hb]
      mem_old := fun b hb => Or.inl hb }
  · rw [hnumber]
    have hsize : u.atoms.size = t.atoms.size + 1 := by
      rw [← Array.length_toList, hlist, List.length_append, Array.length_toList,
        List.length_singleton]
    have hsign : 0 < (t.atoms.size : Int) + 1 := by omega
    have hnatAbs : ((t.atoms.size : Int) + 1).natAbs - 1 = t.atoms.toList.length := by
      rw [Array.length_toList]
      omega
    have hknows : u.Knows ((t.atoms.size : Int) + 1) := ⟨by omega, by omega⟩
    have hmem : ∀ b ∈ u.atoms.toList, b ∈ t.atoms.toList ∨ b = a := by
      simp [hlist]
    exact {
      valid := {
        proper := fun b hb => (hmem b hb).elim (ht.proper b) (fun h => h ▸ ha)
        positive := fun b hb => (hmem b hb).elim (ht.positive b) (fun h => h ▸ hpositive) }
      extends_old := ⟨[a], hlist.symm⟩
      knows := hknows
      atomOf_eq := by
        obtain ⟨b, hb, hatom⟩ := hknows.exists_atom
        rw [hnatAbs, hlist, List.getElem?_concat_length] at hb
        rw [hatom, if_pos hsign, Option.some.inj hb]
      mem_old := fun b hb => (hmem b hb).imp_right Or.inl }

theorem adds_literalOf (ht : t.Valid) (ha : ProperAtom a) :
    Adds t (t.literalOf a).2 a (t.literalOf a).1 := by
  by_cases hpositive : a.symbol.isPositive = true
  · rw [literalOf, if_pos hpositive]
    exact adds_number ht ha hpositive
  · have hopposite : a.opposite.symbol.isPositive = true := by
      rw [ha.isPositive_opposite]
      simpa using hpositive
    have numbered := adds_number ht ha.opposite hopposite
    rw [literalOf, if_neg hpositive]
    exact {
      valid := numbered.valid
      extends_old := numbered.extends_old
      knows := numbered.knows.neg
      atomOf_eq := by
        rw [numbered.valid.atomOf_neg numbered.knows, numbered.atomOf_eq, ha.opposite_opposite]
      mem_old := fun b hb => by
        have := numbered.mem_old b hb
        rw [ha.opposite_opposite] at this
        tauto }

/-- The opposite of an atom has the negated literal and leaves the same table. -/
theorem literalOf_opposite (ha : ProperAtom a) (t : Atoms) :
    t.literalOf a.opposite = (-(t.literalOf a).1, (t.literalOf a).2) := by
  unfold literalOf
  rw [ha.isPositive_opposite]
  cases a.symbol.isPositive with
  | true => simp [ha.opposite_opposite]
  | false => simp

end Atoms

end ClauseForm
