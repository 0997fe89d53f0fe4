import ClauseForm.Literals.Naming
import ClauseForm.Proofs.Numbering
import Mathlib.Data.Set.Card
import Mathlib.Order.Bounds.Basic

/-!
Histories of a numbering.

A numbering is changed by ensuring an index for a name, by giving a name a certain index, by taking
a name away, and by turning bindings into literals.  Numberings that are reached from the empty one
are valid, and the largest index remembers every index that ever had a name (`remembers_after`).
-/

namespace ClauseForm

namespace Numbering

/-- A change to a numbering. -/
inductive Change where
  | ensure (name : String)
  | insert (name : String) (index : Int)
  | erase (name : String)
  /-- Turning bindings into literals, with new indices for names that have none. -/
  | extend (o : LiteralOrder) (v : Bindings)

/-- The numbering after a change.  What fails leaves it as it is, but an extension that runs out of
indices keeps the names that it has added by then. -/
def perform (m : Numbering) : Change → Numbering
  | .ensure name =>
    match m.ensure name with
    | .ok (_, grown) => grown
    | .error _ => m
  | .insert name i =>
    match m.insert name i with
    | .ok grown => grown
    | .error _ => m
  | .erase name => (m.erase name).2
  | .extend o v =>
    (Literals.ofBindingsExtending v m : Except IndexError (Except Faults (Literals o)) × _).2

/-- The numbering after some changes to a given one. -/
def performAll (m : Numbering) (changes : List Change) : Numbering :=
  changes.foldl perform m

/-- The numbering after some changes to the empty one. -/
def after (changes : List Change) : Numbering := empty.performAll changes

/-- An index has a name. -/
def Mapped (m : Numbering) (i : Int) : Prop := ∃ name, m.nameOf? i = some name

/-- An index has a name after some changes, or had one on the way. -/
def EverMapped (changes : List Change) (i : Int) : Prop :=
  ∃ before, before <+: changes ∧ (after before).Mapped i

/-- Names and indices belong to each other one to one, and the listings go by the indices. -/
structure Consistent (m : Numbering) : Prop where
  indexOf?_iff : ∀ name i, m.indexOf? name = some i ↔ m.nameOf? i = some name
  within : ∀ i, m.Mapped i → 1 ≤ i ∧ i ≤ m.maxIndex
  size_eq : m.size = {i | m.Mapped i}.ncard
  mem_indices : ∀ i, i ∈ m.indices ↔ m.Mapped i
  increasing : m.indices.Pairwise (· < ·)
  names_eq : m.names.map some = m.indices.map m.nameOf?

variable {m : Numbering} {name : String} {i : Int} {used : Set Int}

/-! ### Placing and erasing an entry -/

theorem insertEntry_perm (i : Int) (name : String) (entries : List (Int × String)) :
    (insertEntry i name entries).Perm ((i, name) :: entries) := by
  induction entries with
  | nil => exact .refl _
  | cons entry entries ih =>
      rw [insertEntry]
      split
      · exact .refl _
      · exact (ih.cons entry).trans (.swap ..)

theorem mem_entries_place {entry : Int × String} :
    entry ∈ (m.place name i).entries ↔ entry = (i, name) ∨ entry ∈ m.entries := by
  rw [place, (insertEntry_perm ..).mem_iff, List.mem_cons]

theorem pairwise_insertEntry {entries : List (Int × String)}
    (hincreasing : (entries.map Prod.fst).Pairwise (· < ·)) (hnew : i ∉ entries.map Prod.fst) :
    ((insertEntry i name entries).map Prod.fst).Pairwise (· < ·) := by
  induction entries with
  | nil => exact List.pairwise_singleton ..
  | cons entry entries ih =>
      rw [List.map_cons, List.pairwise_cons] at hincreasing
      obtain ⟨hfirst, hrest⟩ := hincreasing
      rw [List.map_cons, List.mem_cons, not_or] at hnew
      rw [insertEntry]
      split
      · rename_i hless
        refine List.pairwise_cons.mpr ⟨?_, List.pairwise_cons.mpr ⟨hfirst, hrest⟩⟩
        intro j hj
        rcases List.mem_cons.mp hj with rfl | hj
        · exact hless
        · exact Int.lt_trans hless (hfirst j hj)
      · rename_i hless
        refine List.pairwise_cons.mpr ⟨?_, ih hrest hnew.2⟩
        intro j hj
        rcases List.mem_cons.mp (((insertEntry_perm ..).map Prod.fst).mem_iff.mp hj) with rfl | hj
        · have := hnew.1
          omega
        · exact hfirst j hj

theorem mem_indices_place {j : Int} :
    j ∈ (m.place name i).indices ↔ j = i ∨ j ∈ m.indices := by
  rw [indices, place, ((insertEntry_perm ..).map Prod.fst).mem_iff]
  exact List.mem_cons

/-- A new name at a new positive index keeps a numbering valid. -/
theorem Valid.place (hm : m.Valid) (hname : name ∉ m.names) (hpositive : 0 < i)
    (hindex : i ∉ m.indices) : (m.place name i).Valid where
  positive := by
    intro j hj
    rcases mem_indices_place.mp hj with rfl | hj
    · exact hpositive
    · exact hm.positive j hj
  increasing := pairwise_insertEntry hm.increasing hindex
  bounded := by
    intro j hj
    rcases mem_indices_place.mp hj with rfl | hj
    · exact Int.le_max_right ..
    · exact Int.le_trans (hm.bounded j hj) (Int.le_max_left ..)
  names_nodup := by
    have hperm : (m.place name i).names.Perm (name :: m.names) :=
      (insertEntry_perm ..).map Prod.snd
    exact hperm.nodup_iff.mpr (List.nodup_cons.mpr ⟨hname, hm.names_nodup⟩)

theorem entries_erase_sublist (m : Numbering) (name : String) :
    (m.erase name).2.entries.Sublist m.entries :=
  List.filter_sublist

theorem erase_of_not_mem (hname : name ∉ m.names) : (m.erase name).2 = m := by
  have hkept : m.entries.filter (fun entry => entry.2 != name) = m.entries :=
    List.filter_eq_self.mpr fun entry hentry =>
      bne_iff_ne.mpr fun hsame => hname (hsame ▸ List.mem_map_of_mem hentry)
  rw [erase, hkept]

theorem Valid.erase (hm : m.Valid) (name : String) : (m.erase name).2.Valid where
  positive i hi := hm.positive i (((entries_erase_sublist m name).map Prod.fst).subset hi)
  increasing := hm.increasing.sublist ((entries_erase_sublist m name).map Prod.fst)
  bounded i hi := hm.bounded i (((entries_erase_sublist m name).map Prod.fst).subset hi)
  names_nodup := hm.names_nodup.sublist ((entries_erase_sublist m name).map Prod.snd)

theorem Valid.mapped_iff (hm : m.Valid) : m.Mapped i ↔ i ∈ m.indices := by
  simp only [Mapped, hm.nameOf?_eq_some_iff, indices, List.mem_map, Prod.exists, exists_and_right,
    exists_eq_right]

theorem Valid.consistent (hm : m.Valid) : m.Consistent where
  indexOf?_iff name i := hm.indexOf?_eq_some_iff.trans hm.nameOf?_eq_some_iff.symm
  within i hi := ⟨hm.positive i (hm.mapped_iff.mp hi), hm.bounded i (hm.mapped_iff.mp hi)⟩
  size_eq := by
    have hset : {i | m.Mapped i} = (m.indices.toFinset : Set Int) := by
      ext i
      simp [hm.mapped_iff]
    rw [hset, Set.ncard_coe_finset, List.toFinset_card_of_nodup hm.indices_nodup, size, indices,
      List.length_map]
  mem_indices i := hm.mapped_iff.symm
  increasing := hm.increasing
  names_eq := by
    rw [names, indices, List.map_map, List.map_map]
    apply List.map_congr_left
    intro entry hentry
    exact (hm.nameOf?_eq_some_iff.mpr hentry).symm

/-! ### Changes that only add entries -/

/-- What a change does that takes no name away: every entry stays, and the largest index stays or is
that of a name. -/
structure Grows (m grown : Numbering) : Prop where
  valid : grown.Valid
  entries_subset : m.entries ⊆ grown.entries
  maxIndex_le : m.maxIndex ≤ grown.maxIndex
  maxIndex_cases : grown.maxIndex = m.maxIndex ∨ grown.maxIndex ∈ grown.indices

variable {grown later : Numbering}

theorem Grows.refl (hm : m.Valid) : m.Grows m :=
  ⟨hm, List.Subset.refl _, Int.le_refl _, Or.inl rfl⟩

theorem Grows.trans (hfirst : m.Grows grown) (hsecond : grown.Grows later) : m.Grows later where
  valid := hsecond.valid
  entries_subset := List.Subset.trans hfirst.entries_subset hsecond.entries_subset
  maxIndex_le := Int.le_trans hfirst.maxIndex_le hsecond.maxIndex_le
  maxIndex_cases := by
    rcases hsecond.maxIndex_cases with hsame | hmem
    · rw [hsame]
      exact hfirst.maxIndex_cases.imp_right fun hmem =>
        List.map_subset Prod.fst hsecond.entries_subset hmem
    · exact Or.inr hmem

theorem grows_place (hm : m.Valid) (hname : name ∉ m.names) (hpositive : 0 < i)
    (hindex : i ∉ m.indices) : m.Grows (m.place name i) where
  valid := hm.place hname hpositive hindex
  entries_subset _ hentry := mem_entries_place.mpr (Or.inr hentry)
  maxIndex_le := Int.le_max_left ..
  maxIndex_cases := by
    rcases max_choice m.maxIndex i with hmax | hmax
    · exact Or.inl hmax
    · exact Or.inr (mem_indices_place.mpr (Or.inl hmax))

theorem indexOf?_eq_none_iff : m.indexOf? name = none ↔ name ∉ m.names := by
  rw [← indexOf?_isSome_iff]
  cases m.indexOf? name <;> simp

/-- A name that has an index keeps it; a new name gets the index after the largest one. -/
theorem ensure_cases (h : m.ensure name = .ok (i, grown)) :
    m.indexOf? name = some i ∧ grown = m ∨
      m.indexOf? name = none ∧ i = m.maxIndex + 1 ∧ grown = m.place name i := by
  unfold ensure at h
  split at h
  · rename_i hknown
    obtain ⟨rfl, rfl⟩ := Prod.mk.inj (Except.ok.inj h)
    exact Or.inl ⟨hknown, rfl⟩
  · rename_i hnew
    split at h
    · obtain ⟨rfl, rfl⟩ := Prod.mk.inj (Except.ok.inj h)
      exact Or.inr ⟨hnew, rfl, rfl⟩
    · contradiction

theorem ensure_eq_error_iff {e : IndexError} :
    m.ensure name = .error e ↔ m.indexOf? name = none ∧ largestIndex ≤ m.maxIndex := by
  cases e
  unfold ensure
  cases m.indexOf? name with
  | some i => simp
  | none => split <;> simp_all

theorem insert_cases (h : m.insert name i = .ok grown) :
    grown = m ∨ m.indexOf? name = none ∧ m.nameOf? i = none ∧ 0 < i ∧ grown = m.place name i := by
  unfold insert at h
  split at h
  · contradiction
  · rename_i hpositive
    split at h
    · split at h
      · exact Or.inl (Except.ok.inj h).symm
      · contradiction
    · contradiction
    · rename_i hname hindex
      exact Or.inr ⟨hname, hindex, by omega, (Except.ok.inj h).symm⟩

theorem Valid.not_mem_indices (hm : m.Valid) (hindex : m.nameOf? i = none) : i ∉ m.indices := by
  intro hmem
  obtain ⟨name, hname⟩ := hm.mapped_iff.mpr hmem
  rw [hindex] at hname
  contradiction

theorem grows_ensure (hm : m.Valid) (hzero : 0 ≤ m.maxIndex)
    (h : m.ensure name = .ok (i, grown)) : m.Grows grown := by
  rcases ensure_cases h with ⟨-, rfl⟩ | ⟨hname, rfl, rfl⟩
  · exact .refl hm
  · refine grows_place hm (indexOf?_eq_none_iff.mp hname) (by omega) fun hmem => ?_
    have := hm.bounded _ hmem
    omega

theorem grows_insert (hm : m.Valid) (h : m.insert name i = .ok grown) : m.Grows grown := by
  rcases insert_cases h with rfl | ⟨hname, hindex, hpositive, rfl⟩
  · exact .refl hm
  · exact grows_place hm (indexOf?_eq_none_iff.mp hname) hpositive (hm.not_mem_indices hindex)

theorem grows_ensureAll (hm : m.Valid) (hzero : 0 ≤ m.maxIndex) (names : List String) :
    m.Grows (m.ensureAll names).2 := by
  induction names generalizing m with
  | nil => exact .refl hm
  | cons name names ih =>
      rw [ensureAll]
      rcases h : m.ensure name with e | ⟨i, grown⟩
      · exact .refl hm
      · have hfirst := grows_ensure hm hzero h
        exact hfirst.trans (ih hfirst.valid (Int.le_trans hzero hfirst.maxIndex_le))

theorem perform_extend (o : LiteralOrder) (v : Bindings) :
    m.perform (.extend o v) = (m.ensureAll v.names).2 := by
  rw [perform, Literals.ofBindingsExtending]

/-- Every change but taking a name away only adds entries. -/
theorem grows_perform (hm : m.Valid) (hzero : 0 ≤ m.maxIndex) {change : Change}
    (hchange : ∀ name, change ≠ .erase name) : m.Grows (m.perform change) := by
  cases change with
  | ensure name =>
      rw [perform]
      rcases h : m.ensure name with e | ⟨i, grown⟩
      · exact .refl hm
      · exact grows_ensure hm hzero h
  | insert name i =>
      rw [perform]
      rcases h : m.insert name i with fault | grown
      · exact .refl hm
      · exact grows_insert hm h
  | erase name => exact absurd rfl (hchange name)
  | extend o v =>
      rw [perform_extend]
      exact grows_ensureAll hm hzero v.names

/-! ### Histories -/

/-- A numbering is valid, and its largest index is the largest of those that had a name at some
time. -/
structure Remembers (m : Numbering) (used : Set Int) : Prop where
  valid : m.Valid
  greatest : IsGreatest ({0} ∪ used) m.maxIndex

theorem Remembers.nonneg (hm : m.Remembers used) : 0 ≤ m.maxIndex :=
  hm.greatest.2 (Or.inl rfl)

theorem remembers_empty : empty.Remembers {i | empty.Mapped i} := by
  have hnone : {i | empty.Mapped i} = ∅ := by
    ext i
    simp [Mapped, nameOf?, empty]
  rw [hnone]
  constructor
  · constructor <;> simp [empty, indices, names]
  · simp [empty, IsGreatest, upperBounds]

/-- A change takes a name away or only adds entries. -/
theorem Remembers.perform_cases (hm : m.Remembers used) (change : Change) :
    (∃ name, change = .erase name ∧ m.perform change = (m.erase name).2) ∨
      m.Grows (m.perform change) := by
  by_cases herase : ∃ name, change = .erase name
  · obtain ⟨name, rfl⟩ := herase
    exact Or.inl ⟨name, rfl, rfl⟩
  · exact Or.inr (grows_perform hm.valid hm.nonneg (not_exists.mp herase))

theorem Remembers.maxIndex_le_perform (hm : m.Remembers used) (change : Change) :
    m.maxIndex ≤ (m.perform change).maxIndex := by
  rcases hm.perform_cases change with ⟨name, rfl, -⟩ | hgrows
  · exact Int.le_refl _
  · exact hgrows.maxIndex_le

/-- After a change the indices from before are remembered and those that have a name now. -/
theorem Remembers.perform (hm : m.Remembers used) (change : Change) :
    (m.perform change).Remembers (used ∪ {i | (m.perform change).Mapped i}) := by
  have hvalid : (m.perform change).Valid := by
    rcases hm.perform_cases change with ⟨name, rfl, -⟩ | hgrows
    · exact hm.valid.erase name
    · exact hgrows.valid
  refine ⟨hvalid, ?_, ?_⟩
  · have hold : m.maxIndex ∈ {0} ∪ (used ∪ {i | (m.perform change).Mapped i}) := by
      rw [← Set.union_assoc]
      exact Or.inl hm.greatest.1
    rcases hm.perform_cases change with ⟨name, rfl, -⟩ | hgrows
    · exact hold
    · rcases hgrows.maxIndex_cases with hsame | hmem
      · rwa [hsame]
      · exact Or.inr (Or.inr (hvalid.mapped_iff.mpr hmem))
  · have hle := hm.maxIndex_le_perform change
    rintro i (hi | hi | hi)
    · exact Int.le_trans (hm.greatest.2 (Or.inl hi)) hle
    · exact Int.le_trans (hm.greatest.2 (Or.inr hi)) hle
    · exact hvalid.bounded i (hvalid.mapped_iff.mp hi)

theorem after_append (changes more : List Change) :
    after (changes ++ more) = (after changes).performAll more :=
  List.foldl_append

theorem after_concat (changes : List Change) (change : Change) :
    after (changes ++ [change]) = (after changes).perform change :=
  after_append changes [change]

theorem everMapped_concat {changes : List Change} {change : Change} :
    EverMapped (changes ++ [change]) i ↔
      EverMapped changes i ∨ ((after changes).perform change).Mapped i := by
  simp only [EverMapped, List.prefix_concat_iff, or_and_right, exists_or, exists_eq_left,
    after_concat]
  exact or_comm

theorem remembers_after (changes : List Change) :
    (after changes).Remembers {i | EverMapped changes i} := by
  induction changes using List.reverseRecOn with
  | nil =>
      have hnow : {i | EverMapped [] i} = {i | empty.Mapped i} := by
        ext i
        simp [EverMapped, after, performAll]
      rw [hnow]
      exact remembers_empty
  | append_singleton changes change ih =>
      have hused : {i | EverMapped (changes ++ [change]) i} =
          {i | EverMapped changes i} ∪ {i | ((after changes).perform change).Mapped i} := by
        ext i
        exact everMapped_concat
      rw [hused, after_concat]
      exact ih.perform change

theorem maxIndex_le_performAll (hm : m.Remembers used) (changes : List Change) :
    m.maxIndex ≤ (m.performAll changes).maxIndex := by
  induction changes generalizing m used with
  | nil => exact Int.le_refl _
  | cons change changes ih =>
      have hnext := hm.perform change
      exact Int.le_trans (hm.maxIndex_le_perform change) (ih hnext)

end Numbering

end ClauseForm
