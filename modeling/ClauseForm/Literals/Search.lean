/-!
Finding a place in an ordered array by halving the range in which it can be.

`probe_of_searchBetween` says that what is found is what was looked for, and `search_eq_none_iff`
that in an ordered array a search fails only where there is nothing to find.
-/

namespace ClauseForm.Literals

/-- Looks between two positions for an element that `probe` calls equal.  `probe` says on which side
of the wanted place an element lies. -/
def searchBetween {α : Type} (xs : Array α) (probe : α → Ordering) (low high : Nat)
    (bound : high ≤ xs.size) : Option Nat :=
  if inside : low < high then
    let middle := low + (high - low) / 2
    have : middle < xs.size := by omega
    match probe xs[middle] with
    | .eq => some middle
    | .lt => searchBetween xs probe (middle + 1) high bound
    | .gt => searchBetween xs probe low middle (by omega)
  else
    none
termination_by high - low

/-- A position at which `probe` calls the element equal, in an array ordered along `probe`. -/
def search {α : Type} (xs : Array α) (probe : α → Ordering) : Option Nat :=
  searchBetween xs probe 0 xs.size (Nat.le_refl _)

/-- A position that is found lies between the two, and `probe` calls its element equal. -/
theorem probe_of_searchBetween {α : Type} {xs : Array α} {probe : α → Ordering} {low high i : Nat}
    {bound : high ≤ xs.size} (h : searchBetween xs probe low high bound = some i) :
    low ≤ i ∧ i < high ∧ xs[i]?.map probe = some .eq := by
  fun_induction searchBetween xs probe low high bound with
  | case1 low high bound inside middle small found =>
    obtain rfl := Option.some.inj h
    refine ⟨by omega, by omega, ?_⟩
    rw [Array.getElem?_eq_getElem small, Option.map_some, found]
  | case2 low high bound inside middle small found ih =>
    obtain ⟨above, below, equal⟩ := ih h
    exact ⟨by omega, below, equal⟩
  | case3 low high bound inside middle small found ih =>
    obtain ⟨above, below, equal⟩ := ih h
    exact ⟨above, by omega, equal⟩
  | case4 => contradiction

/-- An array is ordered along `probe` if what lies before the wanted place comes first, and what
lies after it last. -/
def Ordered {α : Type} (xs : Array α) (probe : α → Ordering) : Prop :=
  ∀ (i j : Nat) (a b : α), i ≤ j → xs[i]? = some a → xs[j]? = some b →
    (probe b = .lt → probe a = .lt) ∧ (probe a = .gt → probe b = .gt)

/-- Where nothing is found in an ordered array, there is nothing to find. -/
theorem probe_ne_of_searchBetween {α : Type} {xs : Array α} {probe : α → Ordering}
    {low high i : Nat} {bound : high ≤ xs.size} (ordered : Ordered xs probe)
    (h : searchBetween xs probe low high bound = none) (above : low ≤ i) (below : i < high) :
    xs[i]?.map probe ≠ some .eq := by
  have small : i < xs.size := by omega
  rw [Array.getElem?_eq_getElem small, Option.map_some, ne_eq, Option.some.injEq]
  fun_induction searchBetween xs probe low high bound with
  | case1 => contradiction
  | case2 low high bound inside middle inArray found ih =>
    by_cases right : middle + 1 ≤ i
    · exact ih h right below
    · have before := (ordered i middle _ _ (by omega) (Array.getElem?_eq_getElem small)
        (Array.getElem?_eq_getElem inArray)).1 found
      rw [before]
      decide
  | case3 low high bound inside middle inArray found ih =>
    by_cases left : i < middle
    · exact ih h above left
    · have after := (ordered middle i _ _ (by omega) (Array.getElem?_eq_getElem inArray)
        (Array.getElem?_eq_getElem small)).2 found
      rw [after]
      decide
  | case4 => omega

/-- In an ordered array a search fails only if no element is called equal. -/
theorem search_eq_none_iff {α : Type} {xs : Array α} {probe : α → Ordering}
    (ordered : Ordered xs probe) : search xs probe = none ↔ ∀ x ∈ xs, probe x ≠ .eq := by
  constructor
  · intro h x hx equal
    obtain ⟨i, hi, rfl⟩ := Array.mem_iff_getElem.1 hx
    refine probe_ne_of_searchBetween ordered h (Nat.zero_le i) hi ?_
    rw [Array.getElem?_eq_getElem hi, Option.map_some, equal]
  · intro h
    cases found : search xs probe with
    | none => rfl
    | some i =>
      obtain ⟨_, hi, equal⟩ := probe_of_searchBetween found
      rw [Array.getElem?_eq_getElem hi, Option.map_some, Option.some.injEq] at equal
      exact absurd equal (h _ (Array.getElem_mem hi))

end ClauseForm.Literals
