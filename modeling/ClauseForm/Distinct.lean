import Std.Data.HashSet

/-!
Collecting things once each, in the order of their first occurrence.

`add?_eq` says what happens to an item, and `toList_ofList` what is left of a list.
-/

namespace ClauseForm

/-- Items in order of their first occurrence, with a set of them to find repetitions quickly. -/
structure Distinct (α : Type) [BEq α] [Hashable α] where
  items : Array α
  seen : Std.HashSet α

namespace Distinct

variable {α : Type} [BEq α] [Hashable α]

/-- No items at all. -/
def empty : Distinct α := ⟨#[], ∅⟩

/-- Adds an item, unless it is a repetition. -/
@[inline]
def add? (d : Distinct α) (a : α) : Option (Distinct α) :=
  if d.seen.contains a then none else some ⟨d.items.push a, d.seen.insert a⟩

/-- The items in order. -/
def toList (d : Distinct α) : List α := d.items.toList

/-- The items of a list, each once. -/
def ofList (as : List α) : Distinct α := as.foldl (fun d a => (d.add? a).getD d) empty

/-- The set holds exactly the items. -/
def Valid (d : Distinct α) : Prop := ∀ a, d.seen.contains a = d.items.contains a

theorem valid_empty [EquivBEq α] [LawfulHashable α] : (empty : Distinct α).Valid := by
  simp [Valid, empty]

/-- An item is refused if it is there already, and is the last one otherwise. -/
theorem add?_eq {d : Distinct α} (valid : d.Valid) (a : α) :
    (d.add? a).map toList = if d.toList.contains a then none else some (d.toList ++ [a]) := by
  unfold add?
  rw [valid a, ← Array.contains_toList]
  cases h : d.items.toList.contains a <;> simp [toList, h]

theorem Valid.add? [EquivBEq α] [LawfulHashable α] {d e : Distinct α} (valid : d.Valid) {a : α}
    (h : d.add? a = some e) : e.Valid := by
  unfold Distinct.add? at h
  split at h
  · contradiction
  · obtain rfl := Option.some.inj h
    intro b
    rw [Std.HashSet.contains_insert, valid b, Array.contains_push, BEq.comm, Bool.or_comm]

private theorem toList_foldl [LawfulBEq α] [LawfulHashable α] (as : List α) {d : Distinct α}
    (valid : d.Valid) :
    (as.foldl (fun d a => (d.add? a).getD d) d).toList =
      d.toList ++ (as.removeAll d.toList).eraseDups := by
  induction as generalizing d with
  | nil => simp [List.removeAll]
  | cons a as ih =>
    have added := add?_eq valid a
    rw [List.foldl_cons]
    cases h : d.add? a with
    | none =>
      rw [h, Option.map_none] at added
      have old : a ∈ d.toList := by simpa using added
      rw [Option.getD_none, ih valid]
      simp [List.removeAll, old]
    | some e =>
      rw [h, Option.map_some] at added
      have new : a ∉ d.toList := fun old => by simp [old] at added
      have grown : e.toList = d.toList ++ [a] := by simpa [new] using added
      rw [Option.getD_some, ih (valid.add? h), grown]
      have filtered : as.removeAll (d.toList ++ [a]) =
          (as.removeAll d.toList).filter fun b => !b == a := by
        simp only [List.removeAll, List.filter_filter, List.elem_eq_contains, List.contains_append,
          List.contains_cons, List.contains_nil, Bool.or_false, Bool.not_or, Bool.and_comm]
      have kept : (a :: as).removeAll d.toList = a :: as.removeAll d.toList := by
        simp [List.removeAll, new]
      rw [filtered, kept, List.eraseDups_cons]
      simp

/-- Each item of a list is kept at its first place. -/
theorem toList_ofList [LawfulBEq α] [LawfulHashable α] (as : List α) :
    (ofList as).toList = as.eraseDups := by
  rw [ofList, toList_foldl as valid_empty]
  have all : as.removeAll [] = as := List.filter_eq_self.2 fun _ _ => rfl
  simp [toList, empty, all]

end Distinct

end ClauseForm
