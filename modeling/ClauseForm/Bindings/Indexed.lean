import ClauseForm.Bindings
import Std.Data.HashMap

/-!
Bindings whose names are looked up in a table.

Behind an array of entries there is a table with the place of each name.  The two change in step: a
new name gets the place behind all others, and where an entry is taken away, the places behind the
gap move up.
-/

namespace ClauseForm

namespace IndexedBindings

/-- The names of some entries in order. -/
def namesOf (entries : Array (String × Value)) : List String := entries.toList.map Prod.fst

/-- A table has the places of the names of some entries, and no others. -/
def InStep (entries : Array (String × Value)) (places : Std.HashMap String Nat) : Prop :=
  ∀ (name : String) (place : Nat),
    places[name]? = some place ↔ (namesOf entries)[place]? = some name

/-- The place of an entry after the one at `gap` was taken away. -/
def closeGap (gap place : Nat) : Nat := if gap < place then place - 1 else place

section Steps

variable {entries : Array (String × Value)} {places : Std.HashMap String Nat} {name : String}
  {place : Nat}

theorem inStep_empty : InStep #[] ∅ := by
  simp [InStep, namesOf]

theorem length_namesOf (entries : Array (String × Value)) :
    (namesOf entries).length = entries.size := by
  rw [namesOf, List.length_map, Array.length_toList]

theorem namesOf_push (entries : Array (String × Value)) (name : String) (value : Value) :
    namesOf (entries.push (name, value)) = namesOf entries ++ [name] := by
  simp [namesOf]

theorem namesOf_modify (entries : Array (String × Value)) (place : Nat) (value : Value) :
    namesOf (entries.modify place fun entry => (entry.1, value)) = namesOf entries := by
  apply List.ext_getElem?
  intro i
  simp only [namesOf, List.getElem?_map, Array.getElem?_toList, Array.getElem?_modify]
  split
  · cases entries[i]? <;> rfl
  · rfl

theorem namesOf_eraseIdx (hplace : place < entries.size) :
    namesOf (entries.eraseIdx place hplace) = (namesOf entries).eraseIdx place := by
  apply List.ext_getElem?
  intro i
  simp only [namesOf, List.getElem?_map, Array.toList_eraseIdx, List.getElem?_eraseIdx]
  split <;> rfl

theorem InStep.lt_size (h : InStep entries places) (hplace : places[name]? = some place) :
    place < entries.size := by
  obtain ⟨hlength, -⟩ := List.getElem?_eq_some_iff.1 ((h name place).1 hplace)
  rwa [length_namesOf] at hlength

/-- The table knows nothing about values. -/
theorem InStep.modify (h : InStep entries places) (place : Nat) (value : Value) :
    InStep (entries.modify place fun entry => (entry.1, value)) places := by
  intro name place
  rw [namesOf_modify]
  exact h name place

/-- A new name gets the place behind all others. -/
theorem InStep.push (h : InStep entries places) (hnew : places[name]? = none) (value : Value) :
    InStep (entries.push (name, value)) (places.insert name entries.size) := by
  intro other place
  have hold := h other place
  rw [Std.HashMap.getElem?_insert, namesOf_push, ← length_namesOf]
  by_cases hbelow : place < (namesOf entries).length
  · have hdiffer : (namesOf entries).length ≠ place := Nat.ne_of_gt hbelow
    rw [List.getElem?_append_left hbelow, ← hold]
    split
    · next hequal =>
      obtain rfl : name = other := eq_of_beq hequal
      simp [hnew, hdiffer]
    · exact Iff.rfl
  · rw [List.getElem?_eq_none (Nat.le_of_not_lt hbelow)] at hold
    rw [List.getElem?_append_right (Nat.le_of_not_lt hbelow), List.getElem?_singleton]
    have hlast : place - (namesOf entries).length = 0 ↔ (namesOf entries).length = place := by omega
    split
    · next hequal =>
      obtain rfl : name = other := eq_of_beq hequal
      simp [hlast]
    · next hdiffer =>
      have hother : name ≠ other := fun hequal => hdiffer (beq_iff_eq.2 hequal)
      rw [hold]
      split <;> simp [hother]

/-- What comes after a gap moves up, and the rest stays. -/
theorem getElem?_eraseIdx_eq_some_iff {names : List String} {gap q : Nat} :
    (names.eraseIdx gap)[q]? = some name ↔
      ∃ p, p ≠ gap ∧ names[p]? = some name ∧ closeGap gap p = q := by
  rw [List.getElem?_eraseIdx]
  constructor
  · intro h
    split at h
    · exact ⟨q, by omega, h, if_neg (by omega)⟩
    · exact ⟨q + 1, by omega, h, if_pos (by omega)⟩
  · rintro ⟨p, hp, hname, rfl⟩
    by_cases hbehind : gap < p
    · have hback : p - 1 + 1 = p := by omega
      rw [closeGap, if_pos hbehind, if_neg (by omega), hback]
      exact hname
    · rw [closeGap, if_neg hbehind, if_pos (by omega)]
      exact hname

/-- Only the places behind the gap move. -/
theorem InStep.eraseIdx (h : InStep entries places) (hplace : places[name]? = some place) :
    InStep (entries.eraseIdx place (h.lt_size hplace))
      ((places.erase name).map fun _ p => closeGap place p) := by
  intro other q
  rw [Std.HashMap.getElem?_map, Std.HashMap.getElem?_erase, namesOf_eraseIdx,
    getElem?_eraseIdx_eq_some_iff, Option.map_eq_some_iff]
  refine exists_congr fun p => ?_
  have hname := h other p
  split
  · next hequal =>
    obtain rfl : name = other := eq_of_beq hequal
    simp only [reduceCtorEq, false_and, false_iff, not_and]
    intro hp hfound
    exact absurd (Option.some.inj ((hname.2 hfound).symm.trans hplace)) hp
  · next hdiffer =>
    rw [hname, ← and_assoc]
    refine and_congr_left fun _ => ⟨fun hfound => ⟨?_, hfound⟩, And.right⟩
    rintro rfl
    have hsame := Option.some.inj (((h name p).1 hplace).symm.trans hfound)
    exact hdiffer (beq_iff_eq.2 hsame)

end Steps

end IndexedBindings

open IndexedBindings in
/-- Names with their values in the order of insertion, and a table of their places. -/
structure IndexedBindings where
  entries : Array (String × Value)
  places : Std.HashMap String Nat
  inStep : InStep entries places

namespace IndexedBindings

/-- No names at all. -/
def empty : IndexedBindings := ⟨#[], ∅, inStep_empty⟩

instance : Inhabited IndexedBindings := ⟨empty⟩

/-- The entries in order. -/
def toList (v : IndexedBindings) : List (String × Value) := v.entries.toList

/-- The names in order. -/
def names (v : IndexedBindings) : List String := namesOf v.entries

/-- The number of names. -/
def size (v : IndexedBindings) : Nat := v.entries.size

/-- The value of a name. -/
def get? (v : IndexedBindings) (name : String) : Option Value :=
  match h : v.places[name]? with
  | none => none
  | some place =>
    have := v.inStep.lt_size h
    some v.entries[place].2

/-- Gives a name a value, in its old place or behind all others.  The value that it had before comes
with the result. -/
def insert (v : IndexedBindings) (name : String) (value : Value) :
    Option Value × IndexedBindings :=
  match h : v.places[name]? with
  | some place =>
    have := v.inStep.lt_size h
    (some v.entries[place].2,
      ⟨v.entries.modify place fun entry => (entry.1, value), v.places,
        v.inStep.modify place value⟩)
  | none =>
    (none,
      ⟨v.entries.push (name, value), v.places.insert name v.entries.size, v.inStep.push h value⟩)

/-- Takes a name away.  The value that it had comes with the result. -/
def erase (v : IndexedBindings) (name : String) : Option Value × IndexedBindings :=
  match h : v.places[name]? with
  | none => (none, v)
  | some place =>
    have := v.inStep.lt_size h
    (some v.entries[place].2,
      ⟨v.entries.eraseIdx place, (v.places.erase name).map fun _ p => closeGap place p,
        v.inStep.eraseIdx h⟩)

/-- Adds one pair to those accepted so far, or reports that its name already has another value. -/
def addPair : IndexedBindings × List Fault → String × Value → IndexedBindings × List Fault
  | (v, faults), (name, value) =>
    match v.get? name with
    | none => ((v.insert name value).2, faults)
    | some old => if old == value then (v, faults) else (v, faults ++ [.nameTaken name])

/-- The bindings of some pairs.  A pair may be repeated, but a name must not have two values. -/
def ofPairs (pairs : List (String × Value)) : Except Faults IndexedBindings :=
  let (v, faults) := pairs.foldl addPair (empty, [])
  Faults.barring faults v

/-- Decides whether two collections give the same names the same values. -/
def same (v w : IndexedBindings) : Bool :=
  v.size == w.size && v.toList.all fun (name, value) => w.get? name == some value

instance : BEq IndexedBindings := ⟨same⟩

/-- The entries in an order that does not depend on the insertions. -/
def sorted (v : IndexedBindings) : List (String × Value) := v.toList.mergeSort Bindings.entryLe

instance : Hashable IndexedBindings := ⟨fun v => hash v.sorted⟩

/-- The bindings without the table. -/
def toBindings (v : IndexedBindings) : Bindings := ⟨v.toList⟩

end IndexedBindings

end ClauseForm
