import ClauseForm.Proofs.ReducedClauses

/-!
Integers that can be literals.

A literal is neither zero nor without a negation of 32 bits.  `ofList?_eq_ok_iff` says that a
collection is built exactly of such integers, and `Proper` what they make of it.
-/

namespace ClauseForm

namespace Literals

variable {o : LiteralOrder} {ls as : List Int} {n : Nat} {l : Int}

/-- An integer can be a literal. -/
def Usable (l : Int) : Prop := l ≠ 0 ∧ (l.natAbs : Int) ≤ largestIndex

instance (l : Int) : Decidable (Usable l) := inferInstanceAs (Decidable (_ ∧ _))

theorem Usable.neg (hl : Usable l) : Usable (-l) :=
  ⟨Int.neg_ne_zero.mpr hl.1, by rw [Int.natAbs_neg]; exact hl.2⟩

theorem checked_cases (l : Int) (i : Nat) :
    Usable l ∧ checked l i = .ok l ∨ ¬ Usable l ∧ ∃ fault, checked l i = .error fault := by
  unfold checked Usable
  by_cases hzero : l = 0
  · exact Or.inr ⟨fun h => h.1 hzero, _, by rw [if_pos (by simpa using hzero)]⟩
  · by_cases hhuge : largestIndex < l.natAbs
    · refine Or.inr ⟨fun h => Int.not_lt.mpr h.2 hhuge, .hugeLiteral i, ?_⟩
      rw [if_neg (by simpa using hzero), if_pos hhuge]
    · refine Or.inl ⟨⟨hzero, Int.not_lt.mp hhuge⟩, ?_⟩
      rw [if_neg (by simpa using hzero), if_neg hhuge]

theorem map_checked_eq_iff :
    ((ls.zipIdx n).map fun (l, i) => checked l i) = as.map .ok ↔
      as = ls ∧ ∀ l ∈ ls, Usable l := by
  induction ls generalizing as n with
  | nil => simp
  | cons l ls ih =>
      rw [List.zipIdx_cons, List.map_cons, List.forall_mem_cons]
      cases as with
      | nil => simp
      | cons a as =>
          rw [List.map_cons, List.cons.injEq, ih, List.cons.injEq]
          dsimp only
          rcases checked_cases l n with ⟨husable, hchecked⟩ | ⟨hnot, fault, hchecked⟩
          · rw [hchecked, Except.ok.injEq]
            constructor
            · rintro ⟨rfl, rfl, hls⟩
              exact ⟨⟨rfl, rfl⟩, husable, hls⟩
            · rintro ⟨⟨rfl, rfl⟩, -, hls⟩
              exact ⟨rfl, rfl, hls⟩
          · rw [hchecked]
            refine ⟨fun h => ?_, fun h => absurd h.2.1 hnot⟩
            cases h.1

/-- A collection is built exactly of integers that can be literals. -/
theorem ofList?_eq_ok_iff {c : Literals o} :
    ofList? ls = .ok c ↔ (∀ l ∈ ls, Usable l) ∧ c = arranged ls := by
  unfold ofList?
  constructor
  · intro h
    cases hcollect : Faults.collect (ls.zipIdx.map fun (l, i) => checked l i) with
    | error faults =>
        rw [hcollect] at h
        contradiction
    | ok as =>
        obtain ⟨rfl, hls⟩ := map_checked_eq_iff.mp (Faults.collect_eq_ok_iff.mp hcollect)
        rw [hcollect] at h
        exact ⟨hls, (Except.ok.inj h).symm⟩
  · rintro ⟨hls, rfl⟩
    rw [Faults.collect_eq_ok_iff.mpr (map_checked_eq_iff.mpr ⟨rfl, hls⟩)]
    rfl

/-- What every collection of literals should be: they are in its order, and all of them can be
literals. -/
structure Proper (c : Literals o) : Prop where
  inOrder : c.InOrder
  usable : ∀ l ∈ c.toList, Usable l

theorem proper_arranged (hls : ∀ l ∈ ls, Usable l) : (arranged ls : Literals o).Proper :=
  ⟨inOrder_arranged ls, fun l hl => hls l (mem_toList_arranged.mp hl)⟩

theorem proper_of_ofList? {c : Literals o} (h : ofList? ls = .ok c) : c.Proper := by
  obtain ⟨hls, rfl⟩ := ofList?_eq_ok_iff.mp h
  exact proper_arranged hls

end Literals

namespace Clause

/-- What every clause is that was built of integers: its literals go by value, and they can be
literals. -/
structure Valid (c : Clause) : Prop where
  ordered : c.toList.Pairwise (· ≤ ·)
  usable : ∀ l ∈ c.toList, Literals.Usable l

variable {c : Clause}

theorem valid_iff_proper : c.Valid ↔ Literals.Proper c :=
  ⟨fun hc => ⟨hc.ordered, hc.usable⟩, fun hc => ⟨hc.inOrder, hc.usable⟩⟩

/-- A valid clause is built again of its own literals. -/
theorem Valid.ofList?_toList (hc : c.Valid) : Literals.ofList? c.toList = .ok c := by
  have hordered : c.InOrder := hc.ordered
  exact Literals.ofList?_eq_ok_iff.mpr ⟨hc.usable, hordered.arranged_toList.symm⟩

theorem valid_of_ofList? {ls : List Int} (h : Literals.ofList? ls = .ok c) : c.Valid :=
  valid_iff_proper.mpr (Literals.proper_of_ofList? h)

end Clause

end ClauseForm
