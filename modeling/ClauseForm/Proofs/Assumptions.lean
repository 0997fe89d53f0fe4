import ClauseForm.Proofs.ModelSearch
import Mathlib.Data.Fintype.BigOperators
import Mathlib.Order.Interval.Finset.Nat

/-!
Counting through the valuations that agree with some assumptions.

Assumptions leave some indices free.  A number is turned into truth values by its binary digits, the
lowest at the smallest free index, and every way to agree with the assumptions comes from exactly one
number with as many digits as there are free indices.  So `countP_visited` can say that a sweep
meets every solution once.
-/

namespace ClauseForm

theorem countP_range (p : Nat → Bool) (n : Nat) :
    (List.range n).countP p = ((Finset.range n).filter fun k => p k = true).card := by
  rw [Finset.card_def, Finset.filter_val, Finset.range_val, Multiset.range, Multiset.filter_coe,
    Multiset.coe_card, List.countP_eq_length_filter]
  simp

namespace Literals

/-- All literals have positive indices. -/
def Indexed {o : LiteralOrder} (c : Literals o) : Prop := ∀ l ∈ c.toList, 0 < l.natAbs

theorem indexed_empty {o : LiteralOrder} : (empty : Literals o).Indexed := by
  simp [Indexed, empty, toList]

end Literals

namespace Assignment

variable {a : Assignment} {index number n : Nat}

/-- No index is assumed both true and false. -/
def Consistent (a : Assignment) : Prop := ∀ l ∈ a.toList, -l ∉ a.toList

/-- The indices that some assumptions fix. -/
def indices (a : Assignment) : Finset Nat := (a.toList.map Int.natAbs).toFinset

/-- Decides whether some assumptions leave an index free. -/
def leavesFree (a : Assignment) (index : Nat) : Bool := a.toList.all fun l => l.natAbs != index

/-- The number of free indices below an index. -/
def rank (a : Assignment) (index : Nat) : Nat :=
  (List.range' 1 (index - 1)).countP a.leavesFree

/-- The truth values that a number stands for: its binary digits at the free indices, the lowest at
the smallest of them, and what is assumed elsewhere. -/
def countedUp (a : Assignment) (number index : Nat) : Bool :=
  if a.leavesFree index then number.testBit (a.rank index) else decide ((index : Int) ∈ a.toList)

/-- The free indices up to a number, in increasing order. -/
def freeUpTo (a : Assignment) (n : Nat) : List Nat := (List.range' 1 n).filter a.leavesFree

theorem mem_freeUpTo : index ∈ a.freeUpTo n ↔ (1 ≤ index ∧ index ≤ n) ∧ a.leavesFree index = true := by
  rw [freeUpTo, List.mem_filter, List.mem_range'_1, Nat.add_comm 1 n, Nat.lt_succ_iff]

theorem nodup_freeUpTo (a : Assignment) (n : Nat) : (a.freeUpTo n).Nodup :=
  (List.nodup_range').filter _

/-- A free index stands at its rank. -/
theorem getElem?_rank (h : index ∈ a.freeUpTo n) : (a.freeUpTo n)[a.rank index]? = some index := by
  obtain ⟨⟨hpositive, hbound⟩, hfree⟩ := mem_freeUpTo.mp h
  have hsplit : List.range' 1 n =
      List.range' 1 (index - 1) ++ index :: List.range' (index + 1) (n - index) := by
    rw [← List.range'_succ]
    have hrest : List.range' index (n - index + 1) = List.range' (1 + (index - 1)) (n - index + 1) := by
      rw [Nat.add_sub_cancel' hpositive]
    rw [hrest, List.range'_append_1]
    congr 1
    omega
  rw [freeUpTo, hsplit, List.filter_append, List.filter_cons_of_pos hfree, rank,
    List.countP_eq_length_filter, List.getElem?_append_right (Nat.le_refl _), Nat.sub_self]
  rfl

theorem rank_getElem {j : Nat} (hj : j < (a.freeUpTo n).length) :
    a.rank (a.freeUpTo n)[j] = j := by
  obtain ⟨_, hget⟩ := List.getElem?_eq_some_iff.mp (getElem?_rank (List.getElem_mem hj))
  exact ((nodup_freeUpTo a n).getElem_inj_iff).mp hget

/-- The indices that are fixed are missing among the free ones. -/
theorem length_freeUpTo (ha : a.Indexed) (hn : ∀ l ∈ a.toList, l.natAbs ≤ n) :
    (a.freeUpTo n).length = n - a.indices.card := by
  have hfree : (a.freeUpTo n).toFinset = Finset.Icc 1 n \ a.indices := by
    ext index
    rw [List.mem_toFinset, mem_freeUpTo, Finset.mem_sdiff, Finset.mem_Icc]
    simp [indices, leavesFree]
  have hfixed : a.indices ⊆ Finset.Icc 1 n := by
    intro index hindex
    obtain ⟨l, hl, rfl⟩ := List.mem_map.mp (List.mem_toFinset.mp hindex)
    exact Finset.mem_Icc.mpr ⟨ha l hl, hn l hl⟩
  rw [← List.toFinset_card_of_nodup (nodup_freeUpTo a n), hfree, Finset.card_sdiff_of_subset hfixed,
    Nat.card_Icc, Nat.add_sub_cancel]

theorem not_leavesFree {l : Int} (hl : l ∈ a.toList) : ¬ a.leavesFree l.natAbs = true := by
  rw [leavesFree, List.all_eq_true]
  intro hall
  simpa using hall l hl

theorem decide_natAbs_mem (hconsistent : a.Consistent) {l : Int} (hl : l ∈ a.toList) :
    decide ((l.natAbs : Int) ∈ a.toList) = decide (0 < l) := by
  by_cases hpositive : 0 < l
  · have hindex : (l.natAbs : Int) = l := Int.natAbs_of_nonneg (Int.le_of_lt hpositive)
    simp [hindex, hl, hpositive]
  · have hindex : (l.natAbs : Int) = -l := by omega
    simp [hindex, hconsistent l hl, hpositive]

/-- What is assumed is true, whatever the number. -/
theorem trueUnder_countedUp (hconsistent : a.Consistent) {l : Int} (hl : l ∈ a.toList)
    (number : Nat) : trueUnder (a.countedUp number) l = true := by
  rw [trueUnder, countedUp, if_neg (not_leavesFree hl), beq_iff_eq, decide_natAbs_mem hconsistent hl]

/-- Truth values that agree with the assumptions are those of every number with the right digits. -/
theorem countedUp_eq {β : Nat → Bool} (hconsistent : a.Consistent)
    (hβ : ∀ l ∈ a.toList, trueUnder β l = true)
    (hdigit : a.leavesFree index = true → number.testBit (a.rank index) = β index) :
    a.countedUp number index = β index := by
  rw [countedUp]
  split
  · next hfree => exact hdigit hfree
  · next hfixed =>
      obtain ⟨l, hl, hindex⟩ := List.all_eq_false.mp (Bool.not_eq_true _ ▸ hfixed)
      obtain rfl : l.natAbs = index := by simpa using hindex
      rw [decide_natAbs_mem hconsistent hl]
      exact (beq_iff_eq.mp (hβ l hl)).symm

/-- The truth values of the indices up to a number that another number stands for. -/
def truths (a : Assignment) (n number : Nat) : Fin n → Bool := fun i => a.countedUp number (i + 1)

/-- The number whose digits are the truth values of the free indices. -/
def numberOf (a : Assignment) {n : Nat} (β : Fin n → Bool) : Nat :=
  Nat.ofBits fun j : Fin (a.freeUpTo n).length => truthAt β (a.freeUpTo n)[j]

theorem truthAt_truths (hpositive : 0 < index) (hbound : index ≤ n) :
    truthAt (a.truths n number) index = a.countedUp number index := by
  obtain ⟨i, rfl⟩ := Nat.exists_eq_add_of_lt hpositive
  rw [Nat.zero_add] at hbound ⊢
  exact truthAt_succ _ hbound

theorem numberOf_truths (hnumber : number < 2 ^ (a.freeUpTo n).length) :
    a.numberOf (a.truths n number) = number := by
  have hdigits : (fun j : Fin (a.freeUpTo n).length =>
      truthAt (a.truths n number) (a.freeUpTo n)[j]) =
        fun j : Fin (a.freeUpTo n).length => number.testBit j := by
    funext j
    obtain ⟨⟨hpositive, hbound⟩, hfree⟩ := mem_freeUpTo.mp (List.getElem_mem j.isLt)
    rw [Fin.getElem_fin, truthAt_truths hpositive hbound, countedUp, if_pos hfree,
      rank_getElem j.isLt]
  rw [numberOf, hdigits, Nat.ofBits_testBit, Nat.mod_eq_of_lt hnumber]

theorem truths_numberOf (hconsistent : a.Consistent) {β : Fin n → Bool}
    (hβ : ∀ l ∈ a.toList, trueUnder (truthAt β) l = true) : a.truths n (a.numberOf β) = β := by
  funext i
  refine (countedUp_eq hconsistent hβ fun hfree => ?_).trans (truthAt_succ β i.isLt)
  have hmem : (i : Nat) + 1 ∈ a.freeUpTo n := mem_freeUpTo.mpr ⟨⟨Nat.succ_pos _, i.isLt⟩, hfree⟩
  obtain ⟨hrank, hget⟩ := List.getElem?_eq_some_iff.mp (getElem?_rank hmem)
  rw [numberOf, Nat.testBit_ofBits_lt _ _ hrank, Fin.getElem_fin, hget]

end Assignment

namespace Valuation

variable {v : Valuation} {index : Nat}

/-- Setting literals gives an index their common sign. -/
theorem value_foldl_set {b : Bool} {ls : List Int} (hsize : ∀ l ∈ ls, l.natAbs < v.size)
    (hsign : ∀ l ∈ ls, l.natAbs = index → decide (0 < l) = b)
    (hset : v.value index = b ∨ ∃ l ∈ ls, l.natAbs = index) :
    value (ls.foldl (fun v l => v.setIfInBounds l.natAbs (decide (0 < l))) v) index = b := by
  induction ls generalizing v with
  | nil => simpa using hset
  | cons l ls ih =>
      obtain ⟨hlsize, hsize⟩ := List.forall_mem_cons.mp hsize
      obtain ⟨hlsign, hsign⟩ := List.forall_mem_cons.mp hsign
      refine ih (by simpa using hsize) hsign ?_
      rw [value_setIfInBounds _ hlsize]
      by_cases hl : l.natAbs = index
      · rw [if_pos hl]
        exact Or.inl (hlsign hl)
      · rw [if_neg hl]
        simpa [hl] using hset

end Valuation

namespace ModelSearch

variable {s : ModelSearch} {a : Assignment} {index number : Nat}

/-- A valuation that agrees with some assumptions, and is false elsewhere. -/
def base (s : ModelSearch) (a : Assignment) : Valuation :=
  (a.toList.foldl Assumed.add (.empty (s.range a + 1))).values

theorem size_base (s : ModelSearch) (a : Assignment) : (s.base a).size = s.range a + 1 :=
  ((Assumed.fits_empty _).foldl_add fun _ => assumed_lt).size_values

/-- The base of a sweep gives the indices that are fixed what is assumed. -/
theorem value_base (hconsistent : a.Consistent) (index : Nat) :
    (s.base a).value index = decide ((index : Int) ∈ a.toList) := by
  rw [base, Assumed.values_foldl_add]
  apply Valuation.value_foldl_set
  · intro l hl
    rw [(Assumed.fits_empty _).size_values]
    exact assumed_lt hl
  · rintro l hl rfl
    exact (Assignment.decide_natAbs_mem hconsistent hl).symm
  · by_cases hset : (index : Int) ∈ a.toList
    · exact Or.inr ⟨_, hset, Int.natAbs_natCast index⟩
    · exact Or.inl (by rw [Assumed.value_empty, decide_eq_false hset])

/-- The valuation of a number is what the number stands for. -/
theorem value_numbered (hconsistent : a.Consistent)
    (hpositive : 0 < index) (hbound : index ≤ s.range a) :
    (Valuation.numbered (a.freeUpTo (s.range a)) number (s.base a)).value index =
      a.countedUp number index := by
  have hsmall : ∀ i ∈ a.freeUpTo (s.range a), i < (s.base a).size := by
    intro i hi
    rw [size_base, Nat.lt_succ_iff]
    exact (Assignment.mem_freeUpTo.mp hi).1.2
  rw [Assignment.countedUp]
  split
  · next hfree =>
      have hmem := Assignment.mem_freeUpTo.mpr ⟨⟨hpositive, hbound⟩, hfree⟩
      obtain ⟨hrank, hget⟩ := List.getElem?_eq_some_iff.mp (Assignment.getElem?_rank hmem)
      rw [← Valuation.value_numbered_getElem hsmall (a.nodup_freeUpTo _) hrank, hget]
  · next hfixed =>
      rw [Valuation.value_numbered_of_not_mem hsmall
        fun hmem => hfixed (Assignment.mem_freeUpTo.mp hmem).2, value_base hconsistent]

/-- The truth values of the indices up to a number that satisfy some clauses and agree with some
assumptions. -/
def solutions (clauses : List Clause) (a : Assignment) (n : Nat) : Finset (Fin n → Bool) :=
  Finset.univ.filter fun β =>
    NormalForm.cnf.reads (trueUnder (truthAt β)) clauses = true ∧
      ∀ l ∈ a.toList, trueUnder (truthAt β) l = true

theorem solutions_of_contradictory {clauses : List Clause} {n : Nat} (hindexed : a.Indexed)
    (hcontradictory : ¬ a.Consistent) : solutions clauses a n = ∅ := by
  simp only [Assignment.Consistent, not_forall, not_not] at hcontradictory
  obtain ⟨l, hl, hopposite⟩ := hcontradictory
  refine Finset.filter_eq_empty_iff.mpr fun β _ hβ => ?_
  have hnonzero : l ≠ 0 := Int.natAbs_pos.mp (hindexed l hl)
  have hfalse := hβ.2 _ hopposite
  rw [trueUnder_neg _ hnonzero, hβ.2 l hl] at hfalse
  contradiction

/-- All literals of the clauses have positive indices, and the largest one is known. -/
structure Valid (s : ModelSearch) : Prop where
  indexed : ∀ c ∈ s.clauses, c.Indexed
  maxIndex_eq : s.maxIndex = Clauses.maxIndex ⟨s.clauses⟩

theorem valid_empty : empty.Valid := ⟨by simp [empty], rfl⟩

theorem Valid.add (hs : s.Valid) {l : Clauses} (hl : l.Indexed) : (s.add l).Valid where
  indexed := List.forall_mem_append.mpr ⟨hs.indexed, hl⟩
  maxIndex_eq := by
    change max s.maxIndex l.maxIndex = Clauses.maxIndex ⟨s.clauses ++ l.toList⟩
    rw [Clauses.maxIndex_append, hs.maxIndex_eq]

/-- The largest index of some clauses and assumptions. -/
def reach (clauses : List Clause) (a : Assignment) : Nat :=
  max (Clauses.maxIndex ⟨clauses⟩) ((a.toList.map Int.natAbs).foldl max 0)

theorem Valid.range_eq (hs : s.Valid) (a : Assignment) : s.range a = reach s.clauses a := by
  refine eq_of_forall_ge_iff fun n => ?_
  rw [range_le_iff, reach, Nat.max_le, Clauses.foldl_max_le_iff, List.forall_mem_map, hs.maxIndex_eq]
  simp

theorem Valid.natAbs_le_range (hs : s.Valid) {c : Clause} (hc : c ∈ s.clauses) {l : Int}
    (hl : l ∈ c.toList) : l.natAbs ≤ s.range a := by
  have hmax := (range_le_iff.mp (Nat.le_refl (s.range a))).1
  rw [hs.maxIndex_eq, Clauses.maxIndex_le_iff] at hmax
  exact hmax c hc l hl

/-- Only the values of the indices in range matter to the clauses. -/
theorem Valid.reads_congr (hs : s.Valid) {β γ : Nat → Bool}
    (h : ∀ index, 0 < index → index ≤ s.range a → β index = γ index) :
    NormalForm.cnf.reads (trueUnder β) s.clauses = NormalForm.cnf.reads (trueUnder γ) s.clauses := by
  apply NormalForm.reads_congr
  intro c hc l hl
  rw [trueUnder, trueUnder, h _ (hs.indexed c hc l hl) (hs.natAbs_le_range hc hl)]

theorem Valid.satisfiedBy_numbered (hs : s.Valid) (hconsistent : a.Consistent) (number : Nat) :
    s.satisfiedBy (.numbered (a.freeUpTo (s.range a)) number (s.base a)) =
      NormalForm.cnf.reads (trueUnder (a.countedUp number)) s.clauses := by
  rw [satisfiedBy_eq]
  exact hs.reads_congr (a := a) fun index hpositive hbound =>
    value_numbered hconsistent hpositive hbound

/-- Each solution belongs to exactly one number with as many digits as there are free indices. -/
theorem Valid.card_solutions (hs : s.Valid) (hindexed : a.Indexed) (hconsistent : a.Consistent) :
    (List.range (2 ^ (a.freeUpTo (s.range a)).length)).countP
        (fun number => NormalForm.cnf.reads (trueUnder (a.countedUp number)) s.clauses) =
      (solutions s.clauses a (s.range a)).card := by
  have hreads : ∀ number, NormalForm.cnf.reads (trueUnder (a.countedUp number)) s.clauses =
      NormalForm.cnf.reads (trueUnder (truthAt (a.truths (s.range a) number))) s.clauses :=
    fun number => hs.reads_congr (a := a) fun index hpositive hbound =>
      (Assignment.truthAt_truths hpositive hbound).symm
  rw [countP_range]
  apply Finset.card_nbij' (a.truths (s.range a)) a.numberOf
  · intro number hnumber
    have hsatisfied := (Finset.mem_filter.mp hnumber).2
    refine Finset.mem_filter.mpr ⟨Finset.mem_univ _, hreads number ▸ hsatisfied, fun l hl => ?_⟩
    rw [trueUnder, Assignment.truthAt_truths (hindexed l hl) (assumed_le_range hl)]
    exact Assignment.trueUnder_countedUp hconsistent hl number
  · intro β hβ
    obtain ⟨-, hsatisfied, hagrees⟩ := Finset.mem_filter.mp hβ
    refine Finset.mem_filter.mpr ⟨Finset.mem_range.mpr (Nat.ofBits_lt_two_pow _), ?_⟩
    rwa [hreads, Assignment.truths_numberOf hconsistent hagrees]
  · intro number hnumber
    exact Assignment.numberOf_truths (Finset.mem_range.mp (Finset.mem_filter.mp hnumber).1)
  · intro β hβ
    exact Assignment.truths_numberOf hconsistent (Finset.mem_filter.mp hβ).2.2

/-- Consistent assumptions can be made, and they leave the other indices free. -/
theorem counter?_of_consistent (hconsistent : a.Consistent) :
    ∃ c, s.counter? a = some c ∧ c.free = a.freeUpTo (s.range a) ∧ c.values = s.base a := by
  have hfits := Assumed.fits_empty (s.range a + 1)
  cases hmade : (Assumed.empty (s.range a + 1)).addAll? a.toList with
  | none =>
      obtain ⟨l, -, hfixed⟩ | ⟨l, hl, k, hk, hindex, hsign⟩ :=
        (hfits.addAll?_eq_none_iff fun l => assumed_lt).mp hmade
      · simp [Assumed.contradicts] at hfixed
      · have hopposite : k = -l := by
          rcases Int.natAbs_eq_natAbs_iff.mp hindex with rfl | hopposite
          · exact absurd rfl hsign
          · omega
        exact absurd (hopposite ▸ hk) (hconsistent l hl)
  | some t =>
      obtain rfl := Assumed.addAll?_eq_some hmade
      refine ⟨_, by rw [counter?, hmade]; rfl, ?_, rfl⟩
      have hsize := (hfits.foldl_add fun l => assumed_lt).size_values
      change Assumed.free _ = _
      rw [Assumed.free, hsize, Nat.add_sub_cancel, Assignment.freeUpTo]
      refine List.filter_congr fun index _ => ?_
      rw [hfits.fixes_foldl_add fun l => assumed_lt, Assumed.fixes_empty, Bool.or_false,
        List.not_any_eq_all_not]
      rfl

/-- Contradictory assumptions can not be made. -/
theorem counter?_of_contradictory (hindexed : a.Indexed) (hcontradictory : ¬ a.Consistent) :
    s.counter? a = none := by
  simp only [Assignment.Consistent, not_forall, not_not] at hcontradictory
  obtain ⟨l, hl, hopposite⟩ := hcontradictory
  have hclash : Assumed.Clash a.toList := by
    refine ⟨l, hl, -l, hopposite, (Int.natAbs_neg l).symm, ?_⟩
    have hpositive := hindexed l hl
    simp only [ne_eq, decide_eq_decide]
    omega
  rw [counter?, ((Assumed.fits_empty _).addAll?_eq_none_iff fun l => assumed_lt).mpr (.inr hclash)]
  rfl

theorem visited_of_contradictory (hindexed : a.Indexed) (hcontradictory : ¬ a.Consistent) :
    s.visited a = [] := by
  rw [visited, counter?_of_contradictory hindexed hcontradictory]

theorem visited_of_consistent (hconsistent : a.Consistent) :
    s.visited a = (List.range (2 ^ (a.freeUpTo (s.range a)).length)).map fun number =>
      .numbered (a.freeUpTo (s.range a)) number (s.base a) := by
  obtain ⟨c, hcounter, hfree, hvalues⟩ := counter?_of_consistent hconsistent
  rw [visited, hcounter, ← hfree, ← hvalues]

theorem consistent_of_lt_length (hindexed : a.Indexed) {k : Nat} (hk : k < (s.visited a).length) :
    a.Consistent := by
  by_contra hcontradictory
  rw [visited_of_contradictory hindexed hcontradictory] at hk
  contradiction

theorem length_visited (hconsistent : a.Consistent) :
    (s.visited a).length = 2 ^ (a.freeUpTo (s.range a)).length := by
  rw [visited_of_consistent hconsistent, List.length_map, List.length_range]

/-- Among the first valuations that a sweep visits, those that satisfy the clauses are those of the
numbers whose truth values do. -/
theorem Valid.countP_take_visited (hs : s.Valid) (hconsistent : a.Consistent) {k : Nat}
    (hk : k ≤ 2 ^ (a.freeUpTo (s.range a)).length) :
    ((s.visited a).take k).countP s.satisfiedBy =
      (List.range k).countP fun number =>
        NormalForm.cnf.reads (trueUnder (a.countedUp number)) s.clauses := by
  rw [visited_of_consistent hconsistent, ← List.map_take, List.take_range, Nat.min_eq_left hk,
    List.countP_map]
  congr 1
  funext number
  exact hs.satisfiedBy_numbered hconsistent number

/-- A sweep that nothing ends meets every solution once. -/
theorem Valid.countP_visited (hs : s.Valid) (hindexed : a.Indexed) :
    (s.visited a).countP s.satisfiedBy = (solutions s.clauses a (s.range a)).card := by
  by_cases hconsistent : a.Consistent
  · rw [← hs.card_solutions hindexed hconsistent, ← hs.countP_take_visited hconsistent le_rfl,
      ← length_visited hconsistent, List.take_length]
  · rw [solutions_of_contradictory hindexed hconsistent, visited_of_contradictory hindexed hconsistent]
    rfl

end ModelSearch

end ClauseForm
