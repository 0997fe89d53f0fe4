import ClauseForm.Numbering.Tables
import ClauseForm.Proofs.NumberingHistory

/-!
A numbering in two tables against a numbering in one list.

The tables are in step if each name has the index whose name it is.  Every change keeps them in step,
answers as it does on the list of entries that `toNumbering` reads off, and leaves the tables of
that list behind.
-/

namespace ClauseForm

namespace NumberingTables

/-- Names and indices belong to each other, and the indices lie between 1 and the largest one. -/
structure InStep (t : NumberingTables) : Prop where
  nonneg : 0 ≤ t.maxIndex
  indexOf?_iff : ∀ name i, t.indexOf? name = some i ↔ t.nameOf? i = some name
  within : ∀ name i, t.nameOf? i = some name → 1 ≤ i ∧ i ≤ t.maxIndex

variable {t u : NumberingTables} {name : String} {i : Int}

/-! ### Reading -/

theorem mem_entries_iff : (i, name) ∈ t.toNumbering.entries ↔ t.nameOf? i = some name :=
  Std.TreeMap.mem_toList_iff_getElem?_eq_some

theorem increasing_indices (t : NumberingTables) : t.indices.Pairwise (· < ·) := by
  rw [indices, Numbering.indices, List.pairwise_map]
  exact Std.TreeMap.ordered_keys_toList.imp Int.compare_eq_lt.mp

theorem InStep.valid (h : t.InStep) : t.toNumbering.Valid where
  positive i hi := by
    obtain ⟨⟨_, name⟩, hentry, rfl⟩ := List.mem_map.mp hi
    exact (h.within name _ (mem_entries_iff.mp hentry)).1
  increasing := t.increasing_indices
  bounded i hi := by
    obtain ⟨⟨_, name⟩, hentry, rfl⟩ := List.mem_map.mp hi
    exact (h.within name _ (mem_entries_iff.mp hentry)).2
  names_nodup := by
    refine List.Nodup.map_on ?_ (.of_map Prod.fst (t.increasing_indices.imp Int.ne_of_lt))
    rintro ⟨i, name⟩ hi ⟨j, _⟩ hj rfl
    have hsame := (h.indexOf?_iff name i).mpr (mem_entries_iff.mp hi)
    rw [(h.indexOf?_iff name j).mpr (mem_entries_iff.mp hj)] at hsame
    exact congrArg (·, name) (Option.some.inj hsame).symm

/-- Nothing but the table of names is needed to look up a name. -/
theorem nameOf?_eq (t : NumberingTables) (i : Int) : t.nameOf? i = t.toNumbering.nameOf? i := by
  refine Option.ext fun name => ?_
  rw [Numbering.nameOf?, lookup_eq_some_iff_mem (t.increasing_indices.imp Int.ne_of_lt),
    mem_entries_iff]

theorem InStep.indexOf?_eq (h : t.InStep) (name : String) :
    t.indexOf? name = t.toNumbering.indexOf? name := by
  refine Option.ext fun i => ?_
  rw [h.valid.indexOf?_eq_some_iff, h.indexOf?_iff, mem_entries_iff]

theorem InStep.size_eq (h : t.InStep) : t.size = t.toNumbering.size := by
  have hkeys : (t.indexTable.toList.map Prod.fst).Nodup := by
    rw [Std.HashMap.map_fst_toList_eq_keys]
    exact Std.HashMap.nodup_keys
  have hperm : (t.indexTable.toList.map Prod.swap).Perm t.toNumbering.entries := by
    have hnodup := (List.Nodup.of_map _ hkeys).map Prod.swap_injective
    refine (List.perm_ext_iff_of_nodup hnodup h.valid.entries_nodup).mpr ?_
    rintro ⟨i, name⟩
    rw [mem_entries_iff, ← h.indexOf?_iff, List.mem_map]
    constructor
    · rintro ⟨⟨_, _⟩, hmem, hswap⟩
      obtain ⟨rfl, rfl⟩ := Prod.mk.inj hswap
      exact Std.HashMap.mem_toList_iff_getElem?_eq_some.mp hmem
    · exact fun hindex => ⟨_, Std.HashMap.mem_toList_iff_getElem?_eq_some.mpr hindex, rfl⟩
  rw [size, ← Std.HashMap.length_toList, Numbering.size, ← hperm.length_eq, List.length_map]

theorem InStep.literalOf_eq (h : t.InStep) : t.literalOf = t.toNumbering.literalOf := by
  funext name positive
  cases hindex : t.toNumbering.indexOf? name <;>
    simp [literalOf, Numbering.literalOf, h.indexOf?_eq, hindex]

theorem nameOfLiteral?_eq (t : NumberingTables) (l : Int) :
    t.nameOfLiteral? l = t.toNumbering.nameOfLiteral? l :=
  t.nameOf?_eq _

theorem InStep.ofBindings_eq (h : t.InStep) {o : LiteralOrder} (v : Bindings) :
    (ofBindings v t : Except Faults (Literals o)) = Literals.ofBindings v t.toNumbering := by
  rw [ofBindings, h.literalOf_eq]
  rfl

/-! ### Writing a new entry -/

/-- The tables with a new name at a new index. -/
def placed (t : NumberingTables) (name : String) (i : Int) : NumberingTables :=
  ⟨t.indexTable.insert name i, t.nameTable.insert i name, max t.maxIndex i⟩

theorem indexOf?_placed {other : String} :
    (t.placed name i).indexOf? other = if name = other then some i else t.indexOf? other := by
  simp [indexOf?, placed, Std.HashMap.getElem?_insert]

theorem nameOf?_placed {j : Int} :
    (t.placed name i).nameOf? j = if i = j then some name else t.nameOf? j := by
  simp [nameOf?, placed, Std.TreeMap.getElem?_insert]

/-- A new name at a new positive index keeps the tables in step. -/
theorem InStep.placed (h : t.InStep) (hname : t.indexOf? name = none) (hindex : t.nameOf? i = none)
    (hpositive : 0 < i) : (t.placed name i).InStep where
  nonneg := Int.le_trans h.nonneg (Int.le_max_left ..)
  indexOf?_iff other j := by
    have hnew : t.nameOf? j ≠ some name := fun hj => by
      rw [(h.indexOf?_iff name j).mpr hj] at hname
      contradiction
    have hfree : t.indexOf? other ≠ some i := fun hi => by
      rw [(h.indexOf?_iff other i).mp hi] at hindex
      contradiction
    rw [indexOf?_placed, nameOf?_placed]
    by_cases hsame : name = other <;> by_cases hplace : i = j
    · simp [hsame, hplace]
    · subst hsame
      simpa [hplace] using hnew
    · subst hplace
      simpa [hsame] using hfree
    · rw [if_neg hsame, if_neg hplace]
      exact h.indexOf?_iff other j
  within other j hj := by
    rw [nameOf?_placed] at hj
    have hmax : (t.placed name i).maxIndex = max t.maxIndex i := rfl
    split at hj
    · omega
    · have := h.within other j hj
      omega

/-- A new entry in the tables is one in the list. -/
theorem InStep.toNumbering_placed (h : t.InStep) (hname : t.indexOf? name = none)
    (hindex : t.nameOf? i = none) (hpositive : 0 < i) :
    (t.placed name i).toNumbering = t.toNumbering.place name i := by
  have hvalid : (t.toNumbering.place name i).Valid := by
    refine h.valid.place ?_ hpositive ?_
    · rwa [← Numbering.indexOf?_eq_none_iff, ← h.indexOf?_eq]
    · rw [nameOf?_eq] at hindex
      exact h.valid.not_mem_indices hindex
  have hentries := (h.placed hname hindex hpositive).valid.entries_eq_of_mem_iff hvalid ?_
  · exact congrArg (Numbering.mk · (max t.maxIndex i)) hentries
  · rintro ⟨j, other⟩
    rw [mem_entries_iff, nameOf?_placed, Numbering.mem_entries_place, mem_entries_iff]
    by_cases hplace : i = j
    · subst hplace
      simp [hindex, eq_comm]
    · simp [hplace, Ne.symm hplace]

/-! ### Taking an entry away -/

/-- The tables without a name and its index. -/
def without (t : NumberingTables) (name : String) (i : Int) : NumberingTables :=
  ⟨t.indexTable.erase name, t.nameTable.erase i, t.maxIndex⟩

theorem indexOf?_without {other : String} :
    (t.without name i).indexOf? other = if name = other then none else t.indexOf? other := by
  simp [indexOf?, without, Std.HashMap.getElem?_erase]

theorem nameOf?_without {j : Int} :
    (t.without name i).nameOf? j = if i = j then none else t.nameOf? j := by
  simp [nameOf?, without, Std.TreeMap.getElem?_erase]

theorem InStep.without (h : t.InStep) (hindex : t.indexOf? name = some i) :
    (t.without name i).InStep where
  nonneg := h.nonneg
  indexOf?_iff other j := by
    have hname := (h.indexOf?_iff name i).mp hindex
    rw [indexOf?_without, nameOf?_without]
    by_cases hsame : name = other <;> by_cases hplace : i = j
    · simp [hsame, hplace]
    · subst hsame
      have hother : t.nameOf? j ≠ some name := fun hj =>
        hplace (Option.some.inj (hindex.symm.trans ((h.indexOf?_iff name j).mpr hj)))
      simpa [hplace] using hother
    · subst hplace
      have hother : t.indexOf? other ≠ some i := fun hi =>
        hsame (Option.some.inj (hname.symm.trans ((h.indexOf?_iff other i).mp hi)))
      simpa [hsame] using hother
    · rw [if_neg hsame, if_neg hplace]
      exact h.indexOf?_iff other j
  within other j hj := by
    rw [nameOf?_without] at hj
    split at hj
    · contradiction
    · exact h.within other j hj

theorem InStep.toNumbering_without (h : t.InStep) (hindex : t.indexOf? name = some i) :
    (t.without name i).toNumbering = (t.toNumbering.erase name).2 := by
  have hvalid := h.valid.erase name
  have hentries := (h.without hindex).valid.entries_eq_of_mem_iff hvalid ?_
  · exact congrArg (Numbering.mk · t.maxIndex) hentries
  · rintro ⟨j, other⟩
    have hfiltered : (j, other) ∈ (t.toNumbering.erase name).2.entries ↔
        t.nameOf? j = some other ∧ other ≠ name := by
      rw [Numbering.erase, List.mem_filter, mem_entries_iff, bne_iff_ne]
    rw [hfiltered, mem_entries_iff, ← (h.without hindex).indexOf?_iff, ← h.indexOf?_iff,
      indexOf?_without]
    by_cases hsame : name = other
    · simp [hsame]
    · simp [hsame, Ne.symm hsame]

/-! ### Changes -/

theorem run_get_bind {ε α : Type} (t : NumberingTables)
    (next : NumberingTables → ExceptT ε (StateM NumberingTables) α) :
    (get >>= next).run.run t = (next t).run.run t := rfl

/-- Without indices left, nothing is written. -/
theorem run_ensure (t : NumberingTables) (name : String) :
    (ensure name).run.run t =
      match t.indexOf? name with
      | some i => (.ok i, t)
      | none =>
        if largestIndex < t.maxIndex + 1 then (.error .exhausted, t)
        else (.ok (t.maxIndex + 1), t.placed name (t.maxIndex + 1)) := by
  rw [ensure, run_get_bind]
  cases t.indexOf? name with
  | some i => rfl
  | none =>
      rw [run_get_bind]
      have hmax : max t.maxIndex (t.maxIndex + 1) = t.maxIndex + 1 := by omega
      by_cases hfull : largestIndex < t.maxIndex + 1
      · simp only [hfull, if_true]
        rfl
      · simp only [hfull, if_false, placed, hmax]
        rfl

/-- An insertion that is refused has written nothing. -/
theorem run_insert (t : NumberingTables) (name : String) (i : Int) :
    (insert name i).run.run t =
      if i ≤ 0 then (.error (.unknownIndex i), t)
      else
        match t.indexOf? name, t.nameOf? i with
        | some j, _ => if j = i then (.ok (), t) else (.error (.nameTaken name), t)
        | none, some _ => (.error (.indexTaken i), t)
        | none, none => (.ok (), t.placed name i) := by
  rw [insert]
  by_cases hpositive : i ≤ 0
  · simp only [hpositive, if_true]
    rfl
  · simp only [hpositive, if_false]
    rw [run_get_bind, run_get_bind]
    cases t.indexOf? name with
    | some j =>
        by_cases hsame : j = i
        · simp only [hsame, ne_eq, not_true_eq_false, if_false, if_true]
          rfl
        · simp only [hsame, ne_eq, not_false_eq_true, if_true, if_false]
          rfl
    | none => cases t.nameOf? i <;> rfl

/-- A name that has an index keeps it; a new name gets the index after the largest one. -/
theorem ensure_cases (h : (ensure name).run.run t = (.ok i, u)) :
    t.indexOf? name = some i ∧ u = t ∨
      t.indexOf? name = none ∧ i = t.maxIndex + 1 ∧ u = t.placed name i := by
  rw [run_ensure] at h
  split at h
  · next hknown =>
      obtain ⟨hfound, rfl⟩ := Prod.mk.inj h
      exact Or.inl ⟨hknown.trans (congrArg some (Except.ok.inj hfound)), rfl⟩
  · next hnew =>
      split at h
      · cases h
      · obtain ⟨hfound, rfl⟩ := Prod.mk.inj h
        obtain rfl := Except.ok.inj hfound
        exact Or.inr ⟨hnew, rfl, rfl⟩

/-- When there are no indices left, the tables are what they were. -/
theorem ensure_error_cases {e : IndexError} (h : (ensure name).run.run t = (.error e, u)) :
    largestIndex < t.maxIndex + 1 ∧ u = t := by
  rw [run_ensure] at h
  split at h
  · cases h
  · split at h
    · next hfull => exact ⟨hfull, (congrArg Prod.snd h).symm⟩
    · cases h

theorem eq_of_ensure_error {e : IndexError} (h : (ensure name).run.run t = (.error e, u)) :
    u = t :=
  (ensure_error_cases h).2

/-- When an insertion fails, the tables are what they were. -/
theorem eq_of_insert_error {fault : Fault} (h : (insert name i).run.run t = (.error fault, u)) :
    u = t := by
  rw [run_insert] at h
  split at h
  · exact (congrArg Prod.snd h).symm
  · split at h
    · split at h
      · cases h
      · exact (congrArg Prod.snd h).symm
    · exact (congrArg Prod.snd h).symm
    · cases h

theorem run_erase (t : NumberingTables) (name : String) :
    (erase name).run t =
      match t.indexOf? name with
      | none => (none, t)
      | some i => (some i, t.without name i) := by
  change (match t.indexOf? name with
    | none => _
    | some i => _ : StateM NumberingTables (Option Int)).run t = _
  cases t.indexOf? name <;> rfl

theorem run_ensureAll_cons (t : NumberingTables) (name : String) (names : List String) :
    (ensureAll (name :: names)).run.run t =
      match (ensure name).run.run t with
      | (.ok _, grown) => (ensureAll names).run.run grown
      | (.error e, grown) => (.error e, grown) := by
  rw [ensureAll, ExceptT.run_bind, StateT.run_bind]
  rcases (ensure name).run.run t with ⟨_ | _, grown⟩ <;> rfl

theorem run_ofBindingsExtending {o : LiteralOrder} (t : NumberingTables) (v : Bindings) :
    (ofBindingsExtending v : ExceptT _ _ (Except Faults (Literals o))).run.run t =
      (((ensureAll v.names).run.run t).1.map fun _ =>
          ofBindings v ((ensureAll v.names).run.run t).2,
        ((ensureAll v.names).run.run t).2) := by
  rw [ofBindingsExtending, ExceptT.run_bind, StateT.run_bind]
  rcases (ensureAll v.names).run.run t with ⟨_ | _, grown⟩ <;> rfl

theorem InStep.nameOf?_next (h : t.InStep) : t.nameOf? (t.maxIndex + 1) = none := by
  rw [Option.eq_none_iff_forall_ne_some]
  intro name hname
  have := (h.within name _ hname).2
  omega

/-- Ensuring an index is the same in one list. -/
theorem InStep.ensure_eq (h : t.InStep) (name : String) :
    t.toNumbering.ensure name =
      ((ensure name).run.run t).1.map fun i => (i, ((ensure name).run.run t).2.toNumbering) := by
  rw [Numbering.ensure, run_ensure, ← h.indexOf?_eq]
  cases hname : t.indexOf? name with
  | some i => rfl
  | none =>
      have hpositive := Int.lt_add_one_of_le h.nonneg
      have hplaced := h.toNumbering_placed hname h.nameOf?_next hpositive
      have hmax : t.toNumbering.maxIndex = t.maxIndex := rfl
      by_cases hfull : largestIndex < t.maxIndex + 1
      · simp only [hfull, if_true, hmax]
        exact if_neg (by omega)
      · simp only [hfull, if_false, hmax, Except.map, hplaced]
        exact if_pos (by omega)

theorem InStep.ensure (h : t.InStep) (name : String) :
    ((NumberingTables.ensure name).run.run t).2.InStep := by
  rw [run_ensure]
  cases hname : t.indexOf? name with
  | some i => exact h
  | none =>
      dsimp only
      split
      · exact h
      · exact h.placed hname h.nameOf?_next (Int.lt_add_one_of_le h.nonneg)

/-- An insertion is the same in one list. -/
theorem InStep.insert_eq (h : t.InStep) (name : String) (i : Int) :
    t.toNumbering.insert name i =
      ((insert name i).run.run t).1.map fun _ => ((insert name i).run.run t).2.toNumbering := by
  rw [Numbering.insert, run_insert, ← h.indexOf?_eq, ← nameOf?_eq]
  by_cases hpositive : i ≤ 0
  · rw [if_pos hpositive, if_pos hpositive]
    rfl
  · rw [if_neg hpositive, if_neg hpositive]
    cases hname : t.indexOf? name with
    | some j => by_cases hsame : j = i <;> simp [hsame, Except.map]
    | none =>
        cases hindex : t.nameOf? i with
        | some other => rfl
        | none => exact congrArg _ (h.toNumbering_placed hname hindex (by omega)).symm

theorem InStep.insert (h : t.InStep) (name : String) (i : Int) :
    ((NumberingTables.insert name i).run.run t).2.InStep := by
  rw [run_insert]
  by_cases hpositive : i ≤ 0
  · rw [if_pos hpositive]
    exact h
  · rw [if_neg hpositive]
    cases hname : t.indexOf? name with
    | some j => by_cases hsame : j = i <;> simpa [hsame] using h
    | none =>
        cases hindex : t.nameOf? i with
        | some other => exact h
        | none => exact h.placed hname hindex (by omega)

/-- Taking a name away is the same in one list. -/
theorem InStep.erase_eq (h : t.InStep) (name : String) :
    t.toNumbering.erase name =
      (((erase name).run t).1, ((erase name).run t).2.toNumbering) := by
  refine Prod.ext ?_ ?_
  · rw [Numbering.erase, run_erase, ← h.indexOf?_eq]
    cases t.indexOf? name <;> rfl
  · rw [run_erase]
    cases hname : t.indexOf? name with
    | some i => exact (h.toNumbering_without hname).symm
    | none =>
        rw [h.indexOf?_eq] at hname
        exact Numbering.erase_of_not_mem (Numbering.indexOf?_eq_none_iff.mp hname)

theorem InStep.erase (h : t.InStep) (name : String) :
    ((NumberingTables.erase name).run t).2.InStep := by
  rw [run_erase]
  cases hname : t.indexOf? name with
  | none => exact h
  | some i => exact h.without hname

/-- Ensuring many indices is the same in one list, and keeps the tables in step. -/
theorem InStep.ensureAll (h : t.InStep) (names : List String) :
    ((ensureAll names).run.run t).2.InStep ∧
      t.toNumbering.ensureAll names =
        (((ensureAll names).run.run t).1, ((ensureAll names).run.run t).2.toNumbering) := by
  induction names generalizing t with
  | nil => exact ⟨h, rfl⟩
  | cons name names ih =>
      have hensured := h.ensure name
      rw [Numbering.ensureAll, run_ensureAll_cons, h.ensure_eq]
      rcases hone : (NumberingTables.ensure name).run.run t with ⟨e | i, grown⟩
      · rw [hone] at hensured
        obtain rfl := eq_of_ensure_error hone
        exact ⟨hensured, rfl⟩
      · rw [hone] at hensured
        exact ih hensured

/-- Turning bindings into literals is the same in one list. -/
theorem InStep.ofBindingsExtending_eq (h : t.InStep) {o : LiteralOrder} (v : Bindings) :
    (Literals.ofBindingsExtending v t.toNumbering :
        Except IndexError (Except Faults (Literals o)) × Numbering) =
      (((ofBindingsExtending v).run.run t).1,
        ((ofBindingsExtending (o := o) v).run.run t).2.toNumbering) := by
  obtain ⟨hensured, hsame⟩ := h.ensureAll v.names
  rw [Literals.ofBindingsExtending, hsame, run_ofBindingsExtending]
  rcases hall : (NumberingTables.ensureAll v.names).run.run t with ⟨e | _, grown⟩
  · rfl
  · rw [hall] at hensured
    simp only [Except.map, hensured.ofBindings_eq]

end NumberingTables

end ClauseForm
