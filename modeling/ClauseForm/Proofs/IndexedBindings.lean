import ClauseForm.Bindings.Indexed
import ClauseForm.Proofs.Repetitions

/-!
Bindings with a table of places against bindings without one.

The table only makes lookups fast: `toBindings` forgets it, and every operation does the same before
and after.
-/

namespace ClauseForm

namespace Bindings

variable {es : List (String × Value)} {name : String} {place : Nat}

/-- What is done to the entry of a name is done at the place of the name. -/
theorem entry_of_place (hnodup : (es.map Prod.fst).Nodup)
    (hplace : (es.map Prod.fst)[place]? = some name) (value : Value) :
    insertEntry name value es =
        (es[place]?.map Prod.snd, es.modify place fun entry => (entry.1, value)) ∧
      eraseEntry name es = (es[place]?.map Prod.snd, es.eraseIdx place) := by
  induction es generalizing place with
  | nil => simp at hplace
  | cons e es ih =>
      obtain ⟨hnew, hrest⟩ := List.nodup_cons.mp hnodup
      cases place with
      | zero =>
          obtain rfl : e.1 = name := Option.some.inj hplace
          simp [insertEntry, eraseEntry]
      | succ place =>
          rw [List.map_cons, List.getElem?_cons_succ] at hplace
          have hdiffer : (e.1 == name) = false := by
            simpa using (ne_of_mem_of_not_mem (List.mem_of_getElem? hplace) hnew).symm
          obtain ⟨hinsert, herase⟩ := ih hrest hplace
          rw [insertEntry, eraseEntry, hdiffer, hinsert, herase]
          exact ⟨rfl, rfl⟩

theorem eraseEntry_of_not_mem (hname : name ∉ es.map Prod.fst) :
    eraseEntry name es = (none, es) := by
  induction es with
  | nil => rfl
  | cons e es ih =>
      rw [List.map_cons, List.mem_cons, not_or] at hname
      have hdiffer : (e.1 == name) = false := by simpa using Ne.symm hname.1
      rw [eraseEntry, hdiffer, ih hname.2]
      rfl

end Bindings

namespace IndexedBindings

variable {v w : IndexedBindings} {name : String} {value : Value} {place : Nat}

theorem names_toBindings (v : IndexedBindings) : v.toBindings.names = v.names := rfl

/-- The table has one place for each name, so no name has two entries. -/
theorem valid_toBindings (v : IndexedBindings) : v.toBindings.Valid := by
  refine List.nodup_iff_getElem?_ne_getElem?.mpr fun i j hless hj hequal => ?_
  have hname : v.names[j]? = some v.names[j] := List.getElem?_eq_getElem hj
  have hi := (v.inStep _ i).mpr (hequal.trans hname)
  have hplace := (v.inStep _ j).mpr hname
  exact Nat.ne_of_lt hless (Option.some.inj (hi.symm.trans hplace))

theorem places_eq_none_iff : v.places[name]? = none ↔ name ∉ v.names := by
  rw [Option.eq_none_iff_forall_ne_some, List.mem_iff_getElem?, not_exists]
  exact forall_congr' fun place => not_congr (v.inStep name place)

theorem get?_eq (v : IndexedBindings) (name : String) : v.get? name = v.toBindings.get? name := by
  unfold get?
  split
  · next h => exact (Bindings.get?_eq_none_iff.mpr (places_eq_none_iff.mp h)).symm
  · next place h =>
      have hplace := (v.inStep name place).mp h
      have hsize := v.inStep.lt_size h
      have hname : v.entries[place].1 = name := by
        simpa [namesOf, hsize] using hplace
      have hmem : (v.entries[place].1, v.entries[place].2) ∈ v.toBindings.toList :=
        Array.mem_toList_iff.mpr (Array.getElem_mem hsize)
      have hfound := v.valid_toBindings.get?_eq_some_iff.mpr hmem
      exact ((congrArg v.toBindings.get? hname.symm).trans hfound).symm

/-- An insertion is the same without the table. -/
theorem insert_eq (v : IndexedBindings) (name : String) (value : Value) :
    ((v.insert name value).1, (v.insert name value).2.toBindings) =
      v.toBindings.insert name value := by
  unfold insert
  split
  · next place h =>
      have hsize := v.inStep.lt_size h
      obtain ⟨hentry, -⟩ := Bindings.entry_of_place v.valid_toBindings
        ((v.inStep name place).mp h) value
      rw [Bindings.insert, hentry]
      simp [toBindings, toList, hsize]
  · next h =>
      have hnew := places_eq_none_iff.mp h
      refine Prod.ext ?_ ?_
      · rw [Bindings.insert_fst]
        exact (Bindings.get?_eq_none_iff.mpr hnew).symm
      · rw [Bindings.insert_of_new hnew]
        simp [toBindings, toList]

/-- A removal is the same without the table. -/
theorem erase_eq (v : IndexedBindings) (name : String) :
    ((v.erase name).1, (v.erase name).2.toBindings) = v.toBindings.erase name := by
  unfold erase
  split
  · next h =>
      have habsent : Bindings.eraseEntry name v.toBindings.toList = (none, v.toBindings.toList) :=
        Bindings.eraseEntry_of_not_mem (places_eq_none_iff.mp h)
      rw [Bindings.erase, habsent]
  · next place h =>
      have hsize := v.inStep.lt_size h
      obtain ⟨-, hentry⟩ := Bindings.entry_of_place v.valid_toBindings
        ((v.inStep name place).mp h) default
      rw [Bindings.erase, hentry]
      simp [toBindings, toList, hsize]

theorem toBindings_insert (v : IndexedBindings) (name : String) (value : Value) :
    (v.insert name value).2.toBindings = (v.toBindings.insert name value).2 :=
  congrArg Prod.snd (v.insert_eq name value)

theorem toBindings_erase (v : IndexedBindings) (name : String) :
    (v.erase name).2.toBindings = (v.toBindings.erase name).2 :=
  congrArg Prod.snd (v.erase_eq name)

theorem insert_fst (v : IndexedBindings) (name : String) (value : Value) :
    (v.insert name value).1 = v.get? name := by
  rw [get?_eq, ← Bindings.insert_fst _ name value, ← insert_eq]

theorem erase_fst (v : IndexedBindings) (name : String) : (v.erase name).1 = v.get? name := by
  rw [get?_eq, ← Bindings.erase_fst, ← erase_eq]

theorem names_insert (v : IndexedBindings) (name : String) (value : Value) :
    (v.insert name value).2.names = if name ∈ v.names then v.names else v.names ++ [name] := by
  rw [← names_toBindings, toBindings_insert, Bindings.names_insert, names_toBindings]

theorem names_erase (v : IndexedBindings) (name : String) :
    (v.erase name).2.names = v.names.erase name := by
  rw [← names_toBindings, toBindings_erase, Bindings.names_erase, names_toBindings]

theorem addPair_eq (built : IndexedBindings × List Fault) (pair : String × Value) :
    Prod.map toBindings id (addPair built pair) =
      Bindings.addPair (Prod.map toBindings id built) pair := by
  obtain ⟨v, faults⟩ := built
  obtain ⟨name, value⟩ := pair
  simp only [addPair, Bindings.addPair, Prod.map_apply, id, ← get?_eq]
  cases v.get? name with
  | none => exact congrArg (·, faults) (v.toBindings_insert name value)
  | some old => cases h : old == value <;> simp [h]

/-- Pairs are accepted and reported in the same way without the table. -/
theorem ofPairs_eq (pairs : List (String × Value)) :
    (ofPairs pairs).map toBindings = Bindings.ofPairs pairs := by
  have hbuilt : Prod.map toBindings id (pairs.foldl addPair (empty, [])) =
      pairs.foldl Bindings.addPair (Bindings.empty, []) :=
    (List.foldl_hom (Prod.map toBindings id) fun built pair => (addPair_eq built pair).symm).symm
  rw [ofPairs, Bindings.ofPairs, ← hbuilt]
  exact Faults.barring_map ..

theorem beq_eq (v w : IndexedBindings) : (v == w) = (v.toBindings == w.toBindings) := by
  change v.same w = v.toBindings.same w.toBindings
  simp only [same, Bindings.same, get?_eq, size, Bindings.size, toBindings, toList,
    Array.length_toList]

theorem sorted_eq (v : IndexedBindings) : v.sorted = v.toBindings.sorted := rfl

end IndexedBindings

end ClauseForm
