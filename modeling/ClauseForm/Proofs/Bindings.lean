import ClauseForm.Bindings
import ClauseForm.Proofs.Numbering
import Mathlib.Data.List.Perm.Subperm

/-!
Values under names: what pairs with different names give, what a completion adds, and which bindings
are equal.
-/

namespace ClauseForm

namespace Value

variable {a b c : Value}

theorem le_trans (hab : a.le b = true) (hbc : b.le c = true) : a.le c = true := by
  cases a <;> cases b <;> cases c <;> grind [Value.le, Int64.le_trans]

theorem le_total (a b : Value) : a.le b = true ∨ b.le a = true := by
  cases a <;> cases b <;> grind [Value.le, Int64.le_total]

theorem le_antisymm (hab : a.le b = true) (hba : b.le a = true) : a = b := by
  cases a <;> cases b <;> grind [Value.le, Int64.le_antisymm]

end Value

namespace Bindings

variable {v w : Bindings} {name other : String} {value : Value}

theorem Valid.get?_eq_some_iff (hv : v.Valid) :
    v.get? name = some value ↔ (name, value) ∈ v.toList :=
  lookup_eq_some_iff_mem hv

theorem get?_eq_none_iff : v.get? name = none ↔ name ∉ v.names := by
  rw [get?, List.lookup_eq_none_iff, names]
  constructor
  · intro h hmem
    obtain ⟨entry, hentry, rfl⟩ := List.mem_map.mp hmem
    simpa using h entry hentry
  · intro h entry hentry
    have : name ≠ entry.1 := fun hequal => h (List.mem_map.mpr ⟨entry, hentry, hequal.symm⟩)
    simpa using this

/-- Bindings are equal if they have the same entries in whatever order. -/
theorem beq_of_perm (hv : v.Valid) (h : w.toList.Perm v.toList) :
    (w == v) = true := by
  have hget : ∀ entry ∈ w.toList, v.get? entry.1 = some entry.2 := fun entry hentry =>
    hv.get?_eq_some_iff.mpr (h.mem_iff.mp hentry)
  change same w v = true
  rw [same, Bool.and_eq_true, List.all_eq_true]
  exact ⟨by simpa [size] using h.length_eq, fun entry hentry => by simpa using hget entry hentry⟩

/-- A new name is added behind all others. -/
theorem insert_of_new (hnew : name ∉ v.names) :
    (v.insert name value).2 = ⟨v.toList ++ [(name, value)]⟩ := by
  have entries : ∀ es : List (String × Value), name ∉ es.map Prod.fst →
      (insertEntry name value es).2 = es ++ [(name, value)] := by
    intro es hes
    induction es with
    | nil => rfl
    | cons e es ih =>
        rw [List.map_cons, List.mem_cons, not_or] at hes
        have hdiffer : (e.1 == name) = false := by simpa using Ne.symm hes.1
        simp [insertEntry, hdiffer, ih hes.2]
  exact congrArg Bindings.mk (entries v.toList hnew)

/-- Pairs with different names bind each name to its value. -/
theorem ofPairs_of_nodup {pairs : List (String × Value)} (hpairs : (pairs.map Prod.fst).Nodup) :
    ofPairs pairs = .ok ⟨pairs⟩ := by
  have added : ∀ (pairs : List (String × Value)) (v : Bindings),
      ((v.toList ++ pairs).map Prod.fst).Nodup →
        pairs.foldl addPair (v, []) = (⟨v.toList ++ pairs⟩, []) := by
    intro pairs
    induction pairs with
    | nil => simp
    | cons pair pairs ih =>
        intro v hv
        obtain ⟨name, value⟩ := pair
        have hnew : name ∉ v.names := by
          rw [List.map_append, List.nodup_append] at hv
          intro hmem
          exact hv.2.2 name hmem name (by simp) rfl
        have hstep : addPair (v, []) (name, value) = (⟨v.toList ++ [(name, value)]⟩, []) := by
          rw [addPair, get?_eq_none_iff.mpr hnew, insert_of_new hnew]
        rw [List.foldl_cons, hstep, ih _ (by simpa using hv), List.append_assoc]
        rfl
  rw [ofPairs, added pairs empty hpairs]
  rfl

/-- A completion gives the value to the names without one, and changes no other. -/
theorem get?_complete (v : Bindings) (names : List String) (value : Value) (name : String) :
    (v.complete names value).get? name =
      if (v.get? name).isSome then v.get? name
      else if name ∈ names then some value else none := by
  unfold complete
  induction names generalizing v with
  | nil =>
      rw [List.foldl_nil, if_neg List.not_mem_nil]
      cases v.get? name <;> rfl
  | cons other names ih =>
      rw [List.foldl_cons, ih]
      by_cases hname : name = other
      · subst hname
        cases h : v.get? name <;> simp [get?_insert, h]
      · have hkept : (if (v.get? other).isSome then v else (v.insert other value).2).get? name =
            v.get? name := by
          split
          · rfl
          · rw [get?_insert, if_neg hname]
        simp [hkept, hname]

/-- The names bound to the truth values that a function gives to their places. -/
def ofTruths (names : List String) (β : Fin names.length → Bool) : Bindings :=
  ⟨List.ofFn fun i => (names[i], .truth (β i))⟩

theorem get?_ofTruths {names : List String} (hnames : names.Nodup) (β : Fin names.length → Bool)
    (i : Fin names.length) : (ofTruths names β).get? names[i] = some (.truth (β i)) := by
  have hvalid : (ofTruths names β).Valid := by
    simpa [Valid, Bindings.names, ofTruths, List.map_ofFn, Function.comp_def] using hnames
  exact hvalid.get?_eq_some_iff.mpr (List.mem_ofFn.mpr ⟨i, rfl⟩)

/-! ### Equality -/

theorem Valid.nodup_toList (hv : v.Valid) : v.toList.Nodup := List.Nodup.of_map Prod.fst hv

/-- The same entries are the same values under the same names. -/
theorem Valid.perm_iff (hv : v.Valid) (hw : w.Valid) :
    v.toList.Perm w.toList ↔ ∀ name, v.get? name = w.get? name := by
  rw [List.perm_ext_iff_of_nodup hv.nodup_toList hw.nodup_toList, Prod.forall]
  refine forall_congr' fun name => ?_
  rw [Option.ext_iff]
  simp only [hv.get?_eq_some_iff, hw.get?_eq_some_iff]

theorem Valid.perm_of_beq (hv : v.Valid) (hw : w.Valid) (h : (v == w) = true) :
    v.toList.Perm w.toList := by
  change same v w = true at h
  rw [same, Bool.and_eq_true, List.all_eq_true] at h
  obtain ⟨hsize, hentries⟩ := h
  have hsubset : v.toList ⊆ w.toList := fun entry hentry =>
    hw.get?_eq_some_iff.mp (by simpa using hentries entry hentry)
  have hlength : v.toList.length = w.toList.length := by simpa [size] using hsize
  exact (List.subperm_of_subset hv.nodup_toList hsubset).perm_of_length_le (Nat.le_of_eq hlength.symm)

/-- Bindings are equal exactly if they give the same values to the same names. -/
theorem Valid.beq_iff (hv : v.Valid) (hw : w.Valid) :
    (v == w) = true ↔ ∀ name, v.get? name = w.get? name :=
  ⟨fun h => (hv.perm_iff hw).mp (hv.perm_of_beq hw h),
    fun h => beq_of_perm hw ((hv.perm_iff hw).mpr h)⟩

section Sorting

variable {a b c : String × Value}

theorem entryLe_iff : entryLe a b = true ↔ a.1 < b.1 ∨ a.1 = b.1 ∧ a.2.le b.2 = true := by
  unfold entryLe
  split
  · next h =>
      have hequal : a.1 = b.1 := by simpa using h
      simp [hequal]
  · next h =>
      have hdiffer : a.1 ≠ b.1 := by simpa using h
      simp [hdiffer]

theorem entryLe_trans (hab : entryLe a b = true) (hbc : entryLe b c = true) :
    entryLe a c = true := by
  rw [entryLe_iff] at *
  rcases hab with hab | ⟨hab, hleft⟩ <;> rcases hbc with hbc | ⟨hbc, hright⟩
  · exact Or.inl (String.lt_trans hab hbc)
  · exact Or.inl (hbc ▸ hab)
  · exact Or.inl (hab ▸ hbc)
  · exact Or.inr ⟨hab.trans hbc, Value.le_trans hleft hright⟩

theorem entryLe_total (a b : String × Value) : (entryLe a b || entryLe b a) = true := by
  rw [Bool.or_eq_true, entryLe_iff, entryLe_iff]
  by_cases hless : a.1 < b.1
  · exact Or.inl (Or.inl hless)
  by_cases hmore : b.1 < a.1
  · exact Or.inr (Or.inl hmore)
  have hequal := String.le_antisymm (String.not_lt.mp hmore) (String.not_lt.mp hless)
  exact (Value.le_total a.2 b.2).imp (fun h => Or.inr ⟨hequal, h⟩) fun h => Or.inr ⟨hequal.symm, h⟩

theorem entryLe_antisymm (hab : entryLe a b = true) (hba : entryLe b a = true) : a = b := by
  rw [entryLe_iff] at *
  rcases hab with hab | ⟨hname, hab⟩ <;> rcases hba with hba | ⟨hname', hba⟩
  · exact absurd hba (String.lt_asymm hab)
  · exact absurd (hname' ▸ hab) (String.lt_irrefl _)
  · exact absurd (hname ▸ hba) (String.lt_irrefl _)
  · exact Prod.ext hname (Value.le_antisymm hab hba)

/-- The order of the entries does not show in the sorted list that is hashed. -/
theorem sorted_eq_of_perm (h : v.toList.Perm w.toList) : v.sorted = w.sorted := by
  have hperm : v.sorted.Perm w.sorted :=
    (List.mergeSort_perm _ _).trans (h.trans (List.mergeSort_perm _ _).symm)
  have hsorted : ∀ u : Bindings, u.sorted.Pairwise fun a b => entryLe a b = true := by
    intro u
    refine List.pairwise_mergeSort ?_ entryLe_total u.toList
    exact fun _ _ _ => entryLe_trans
  exact hperm.eq_of_pairwise (fun _ _ _ _ => entryLe_antisymm) (hsorted v) (hsorted w)

end Sorting

end Bindings

end ClauseForm
