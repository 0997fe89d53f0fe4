import ClauseForm.Proofs.AtomOrder
import ClauseForm.Proofs.Faults

/-!
Interning atoms one after another.

The literals that a table gives out stand for the atoms that it was asked about, in that table and
in every later one (`Records.add` for one atom, `Records.exists_internAll` for a run).  So a literal
is the place of its atom among the positive forms met first, and its sign tells the atom from its
opposite.  `internAll_spec` says this for every run that does not use up the numbers.
-/

namespace ClauseForm

namespace Atoms

open Expression

/-- The literals of some atoms, which are interned one after another. -/
def internAll (t : Atoms) : List Expression → Except AtomError (List Int × Atoms)
  | [] => .ok ([], t)
  | a :: as => do
    let (l, u) ← t.intern a
    let (ls, w) ← u.internAll as
    return (l :: ls, w)

/-- The literal of an atom by its place in a list of positive atoms. -/
def literalIn (list : List Expression) (a : Expression) : Int :=
  if a.symbol.isPositive then list.idxOf a.positiveForm + 1 else -(list.idxOf a.positiveForm + 1)

variable {t u w : Atoms} {as bs : List Expression} {ls ks : List Int} {a : Expression} {l : Int}

/-! ### Runs -/

theorem intern_eq_ok (h : t.atoms.size < largestIndex) (a : Expression) :
    t.intern a = .ok (t.literalOf a) :=
  if_pos h

theorem internAll_cons (hfirst : t.intern a = .ok (l, u)) (hrest : u.internAll as = .ok (ls, w)) :
    t.internAll (a :: as) = .ok (l :: ls, w) := by
  rw [internAll, hfirst]
  change (u.internAll as >>= _) = _
  rw [hrest]
  rfl

theorem internAll_append (hfirst : t.internAll as = .ok (ls, u))
    (hrest : u.internAll bs = .ok (ks, w)) : t.internAll (as ++ bs) = .ok (ls ++ ks, w) := by
  induction as generalizing t ls with
  | nil =>
      obtain ⟨rfl, rfl⟩ := Prod.mk.inj (Except.ok.inj hfirst)
      exact hrest
  | cons a as ih =>
      obtain ⟨⟨l, v⟩, hintern, hbind⟩ := except_bind_eq_ok hfirst
      obtain ⟨⟨ks', v'⟩, htail, hlast⟩ := except_bind_eq_ok hbind
      obtain ⟨rfl, rfl⟩ := Prod.mk.inj (Except.ok.inj hlast)
      exact internAll_cons hintern (ih htail)

/-! ### What a table records -/

/-- A table after some atoms were interned, with the literals that it gave out for them. -/
structure Records (t : Atoms) (as : List Expression) (ls : List Int) : Prop where
  valid : t.Valid
  atoms_eq : t.atoms.toList = (as.map positiveForm).eraseDups
  knows : ∀ l ∈ ls, t.Knows l
  map_atomOf : ls.map t.atomOf = as

theorem records_empty : Records .empty [] [] where
  valid := valid_empty
  atoms_eq := rfl
  knows := by simp
  map_atomOf := rfl

namespace Records

/-- A further atom keeps the literals given out before. -/
theorem add (h : Records t as ls) (ha : ProperAtom a) :
    Records (t.literalOf a).2 (as ++ [a]) (ls ++ [(t.literalOf a).1]) := by
  have added := adds_literalOf h.valid ha
  have hold : ls.map (t.literalOf a).2.atomOf = ls.map t.atomOf :=
    List.map_congr_left fun l hl => added.extends_old.atomOf_eq (h.knows l hl)
  exact {
    valid := added.valid
    atoms_eq := by
      rw [toList_literalOf, h.atoms_eq, eraseDups_append_right, List.map_append, List.map_singleton]
    knows := by
      rw [List.forall_mem_append, List.forall_mem_singleton]
      exact ⟨fun l hl => added.extends_old.knows (h.knows l hl), added.knows⟩
    map_atomOf := by
      rw [List.map_append, List.map_singleton, hold, h.map_atomOf, added.atomOf_eq] }

/-- An atom and its opposite take only one place. -/
theorem size_le (h : Records t as ls) : t.atoms.size ≤ as.eraseDups.length := by
  rw [← Array.length_toList, h.atoms_eq]
  exact length_eraseDups_map_le positiveForm as

theorem length_eq (h : Records t as ls) : ls.length = as.length := by
  rw [← h.map_atomOf, List.length_map]

/-- While there are numbers left, a run does not fail. -/
theorem exists_internAll (h : Records t as ls) (hbs : ∀ b ∈ bs, ProperAtom b)
    (hfew : (as ++ bs).eraseDups.length < largestIndex) :
    ∃ ks u, t.internAll bs = .ok (ks, u) ∧ Records u (as ++ bs) (ls ++ ks) ∧ u.Extends t := by
  induction bs generalizing t as ls with
  | nil => exact ⟨[], t, rfl, by simpa using h, .refl t⟩
  | cons b bs ih =>
      obtain ⟨hb, hrest⟩ := List.forall_mem_cons.mp hbs
      have hroom : t.atoms.size < largestIndex := by
        have hsize := h.size_le
        have hlength := length_eraseDups_le_append as (b :: bs)
        omega
      rw [List.append_cons] at hfew
      obtain ⟨ks, u, hrun, hrecords, hextends⟩ := ih (h.add hb) hrest hfew
      rw [← List.append_cons, ← List.append_cons] at hrecords
      exact ⟨(t.literalOf b).1 :: ks, u, internAll_cons (intern_eq_ok hroom b) hrun, hrecords,
        (adds_literalOf h.valid hb).extends_old.trans hextends⟩

end Records

/-! ### What the literals say -/

theorem Valid.literalIn_atomOf (ht : t.Valid) (hl : t.Knows l) :
    literalIn t.atoms.toList (t.atomOf l) = l := by
  obtain ⟨hi, hequal⟩ := List.getElem?_eq_some_iff.mp (ht.getElem?_positiveForm hl)
  have hplace : t.atoms.toList.idxOf (t.atomOf l).positiveForm = l.natAbs - 1 := by
    rw [← hequal]
    exact t.nodup.idxOf_getElem _ hi
  have hnonzero := hl.1
  rw [literalIn, hplace, ht.isPositive_atomOf hl]
  by_cases hpositive : 0 < l
  · rw [decide_eq_true hpositive, if_pos rfl]
    omega
  · rw [decide_eq_false hpositive, if_neg Bool.false_ne_true]
    omega

/-- What a table and the literals that it gave out for some atoms say about these atoms. -/
structure Interned (as : List Expression) (ls : List Int) (t : Atoms) : Prop where
  /-- The list has the positive forms of the atoms, each where it was first met. -/
  atoms_eq : t.atoms.toList = (as.map positiveForm).eraseDups
  nodup : t.atoms.toList.Nodup
  positive : ∀ a ∈ t.atoms.toList, ProperAtom a ∧ a.symbol.isPositive = true
  /-- The table behind the list has the places, counted from 1. -/
  numbers_eq : ∀ a, t.numbers[a]? = (t.atoms.toList.idxOf? a).map (· + 1)
  literals_eq : ls = as.map (literalIn t.atoms.toList)
  atomOf?_eq : ls.map t.atomOf? = as.map some
  same_iff : ∀ p ∈ as.zip ls, ∀ q ∈ as.zip ls, p.2 = q.2 ↔ p.1 = q.1
  opposite_iff : ∀ p ∈ as.zip ls, ∀ q ∈ as.zip ls, p.2 = -q.2 ↔ p.1 = q.1.opposite
  natAbs_eq_iff : ∀ p ∈ as.zip ls, ∀ q ∈ as.zip ls,
    p.2.natAbs = q.2.natAbs ↔ p.1 = q.1 ∨ (p.1 = q.1.opposite ∧ q.1 = p.1.opposite)

namespace Records

/-- The literal of a call is known, and stands for the atom of the call. -/
theorem of_mem_zip (h : Records t as ls) {p : Expression × Int} (hp : p ∈ as.zip ls) :
    t.Knows p.2 ∧ t.atomOf p.2 = p.1 := by
  rw [← h.map_atomOf, ← List.map_prod_right_eq_zip] at hp
  obtain ⟨l, hl, rfl⟩ := List.mem_map.mp hp
  exact ⟨h.knows l hl, rfl⟩

theorem interned (h : Records t as ls) : Interned as ls t := by
  have hsame : ∀ p ∈ as.zip ls, ∀ q ∈ as.zip ls, p.2 = q.2 ↔ p.1 = q.1 := by
    intro p hp q hq
    obtain ⟨hpknown, hpatom⟩ := h.of_mem_zip hp
    obtain ⟨hqknown, hqatom⟩ := h.of_mem_zip hq
    rw [← hpatom, ← hqatom]
    exact ⟨congrArg t.atomOf, h.valid.atomOf_injective hpknown hqknown⟩
  have hopposite : ∀ p ∈ as.zip ls, ∀ q ∈ as.zip ls, p.2 = -q.2 ↔ p.1 = q.1.opposite := by
    intro p hp q hq
    obtain ⟨hpknown, hpatom⟩ := h.of_mem_zip hp
    obtain ⟨hqknown, hqatom⟩ := h.of_mem_zip hq
    rw [← hpatom, ← hqatom, ← h.valid.atomOf_neg hqknown]
    exact ⟨congrArg t.atomOf, h.valid.atomOf_injective hpknown hqknown.neg⟩
  exact {
    atoms_eq := h.atoms_eq
    nodup := t.nodup
    positive := fun a ha => ⟨h.valid.proper a ha, h.valid.positive a ha⟩
    numbers_eq := t.getElem?_numbers
    literals_eq := by
      have hplaces : ls.map (fun l => literalIn t.atoms.toList (t.atomOf l)) = ls :=
        (List.map_congr_left fun l hl => h.valid.literalIn_atomOf (h.knows l hl)).trans
          (List.map_id' ls)
      rw [← h.map_atomOf, List.map_map]
      exact hplaces.symm
    atomOf?_eq := by
      rw [← h.map_atomOf, List.map_map]
      exact List.map_congr_left fun l hl => atomOf?_eq_some_iff.mpr ⟨h.knows l hl, rfl⟩
    same_iff := hsame
    opposite_iff := hopposite
    natAbs_eq_iff := by
      intro p hp q hq
      rw [Int.natAbs_eq_natAbs_iff, hsame p hp q hq, hopposite p hp q hq]
      refine or_congr_right ⟨fun hpq => ⟨hpq, ?_⟩, And.left⟩
      obtain ⟨hqknown, hqatom⟩ := h.of_mem_zip hq
      have hproper : ProperAtom q.1 := hqatom ▸ h.valid.properAtom_atomOf hqknown
      rw [hpq, hproper.opposite_opposite] }

end Records

/-- Fewer different atoms than there are numbers can be interned one after another.  At any time the
table holds their positive forms in the order in which they were first met, the literals given out
are their places in it, and these literals keep their atoms. -/
theorem internAll_spec {as : List Expression} (has : ∀ a ∈ as, ProperAtom a)
    (hfew : as.eraseDups.length < largestIndex) :
    ∃ ls t, Atoms.empty.internAll as = .ok (ls, t) ∧ Interned as ls t ∧
      (∀ earlier later, as = earlier ++ later →
        ∃ u, Atoms.empty.internAll earlier = .ok (ls.take earlier.length, u) ∧
          Interned earlier (ls.take earlier.length) u ∧ t.Extends u ∧
          ∀ l a, u.atomOf? l = some a → t.atomOf? l = some a) ∧
      ∀ a, ProperAtom a →
        ∃ l u, t.intern a = .ok (l, u) ∧ t.intern a.opposite = .ok (-l, u) := by
  obtain ⟨ls, t, hrun, hrecords, -⟩ := records_empty.exists_internAll has hfew
  rw [List.nil_append, List.nil_append] at hrecords
  refine ⟨ls, t, hrun, hrecords.interned, ?_, ?_⟩
  · rintro earlier later rfl
    obtain ⟨hearlier, hlater⟩ := List.forall_mem_append.mp has
    have hbefore : earlier.eraseDups.length < largestIndex := by
      have hlength := length_eraseDups_le_append earlier later
      omega
    obtain ⟨ks, u, hfirst, hfirstRecords, -⟩ := records_empty.exists_internAll hearlier hbefore
    rw [List.nil_append, List.nil_append] at hfirstRecords
    obtain ⟨ks', w, hrest, -, hextends⟩ := hfirstRecords.exists_internAll hlater hfew
    -- The two parts are the whole run.
    have hwhole := (internAll_append hfirst hrest).symm.trans hrun
    obtain ⟨rfl, rfl⟩ := Prod.mk.inj (Except.ok.inj hwhole)
    rw [← hfirstRecords.length_eq, List.take_left]
    refine ⟨u, hfirst, hfirstRecords.interned, hextends, fun l a hatom => ?_⟩
    obtain ⟨hl, rfl⟩ := atomOf?_eq_some_iff.mp hatom
    exact atomOf?_eq_some_iff.mpr ⟨hextends.knows hl, hextends.atomOf_eq hl⟩
  · intro a ha
    have hroom : t.atoms.size < largestIndex := by
      have hsize := hrecords.size_le
      omega
    refine ⟨(t.literalOf a).1, (t.literalOf a).2, intern_eq_ok hroom a, ?_⟩
    rw [intern_eq_ok hroom, literalOf_opposite ha]

namespace InterningWitness

/-- A comparison, which is a positive atom. -/
def below : Expression := node (.compare .less) [unknown "x", constant 1]

/-- The opposite comparison. -/
def atLeast : Expression := node (.compare .greaterOrEqual) [unknown "x", constant 1]

/-- Two pairs of opposites, each with the negative atom first. -/
def sample : List Expression := [atLeast, literal "a" false, literal "a" true, below]

theorem proper_of_mem_sample : ∀ a ∈ sample, ProperAtom a := by
  have hterms : TermTree (unknown "x") ∧ TermTree (constant 1) := ⟨.unknown "x", .constant 1⟩
  simp only [sample, List.forall_mem_cons]
  exact ⟨.compare _ hterms.1 hterms.2, .literal "a" false, .literal "a" true,
    .compare _ hterms.1 hterms.2, by simp⟩

theorem sample_few : sample.eraseDups.length < largestIndex := by
  have hlength := (eraseDups_sublist sample).length_le
  have hsample : sample.length = 4 := rfl
  rw [largestIndex]
  omega

/-- The positive atoms of the sample. -/
def positives : List Expression := [below, literal "a" true]

theorem below_ne_literal : below ≠ literal "a" true := by
  simp [below, literal]

theorem eraseDups_positiveForms : (sample.map positiveForm).eraseDups = positives := by
  change [below, literal "a" true, literal "a" true, below].eraseDups = positives
  simp [List.eraseDups_cons, below_ne_literal.symm, positives]

theorem map_literalIn_sample : sample.map (literalIn positives) = [-1, -2, 2, 1] := by
  have hfirst : positives.idxOf below = 0 := List.idxOf_cons_self
  have hsecond : positives.idxOf (literal "a" true) = 1 := by
    simp [positives, below_ne_literal]
  have hsigns : sample.map (literalIn positives) =
      [-((positives.idxOf below : Int) + 1), -((positives.idxOf (literal "a" true) : Int) + 1),
        (positives.idxOf (literal "a" true) : Int) + 1, (positives.idxOf below : Int) + 1] := rfl
  rw [hsigns, hfirst, hsecond]
  rfl

theorem internAll_spec_sample :
    (∀ a ∈ sample, ProperAtom a) ∧ sample.eraseDups.length < largestIndex ∧
      ∃ t, Atoms.empty.internAll sample = .ok ([-1, -2, 2, 1], t) ∧
        t.atoms.toList = positives ∧
        t.numbers[literal "a" true]? = some 2 ∧
        t.atomOf? (-1) = some atLeast := by
  obtain ⟨ls, t, hrun, hinterned, -, -⟩ := internAll_spec proper_of_mem_sample sample_few
  have hatoms : t.atoms.toList = positives := hinterned.atoms_eq.trans eraseDups_positiveForms
  have hliterals : ls = [-1, -2, 2, 1] := by
    rw [hinterned.literals_eq, hatoms, map_literalIn_sample]
  subst hliterals
  refine ⟨proper_of_mem_sample, sample_few, t, hrun, hatoms, ?_, ?_⟩
  · rw [hinterned.numbers_eq, hatoms]
    simp [positives, List.idxOf?_cons, below_ne_literal]
  · exact (List.cons.inj hinterned.atomOf?_eq).1

end InterningWitness

end Atoms

end ClauseForm
