import ClauseForm.Proofs.Faults
import ClauseForm.Proofs.NumberingHistory

/-!
Numberings that were built by giving indices to new names.

When entries with names and indices that are all new are placed into a numbering, it stays valid and
its largest index stays one that is in use.  Such a numbering is determined by its entries.
-/

namespace ClauseForm

namespace Numbering

variable {m n : Numbering} {name : String} {i : Int} {entries : List (Int × String)}

/-! ### Placing many entries -/

/-- Adds entries with names and indices that are all new. -/
def placeAll (m : Numbering) (entries : List (Int × String)) : Numbering :=
  entries.foldl (fun m entry => m.place entry.2 entry.1) m

/-- Names and positive indices that are all new to a numbering. -/
structure Fresh (m : Numbering) (entries : List (Int × String)) : Prop where
  positive : ∀ entry ∈ entries, 0 < entry.1
  indices_nodup : (entries.map Prod.fst).Nodup
  names_nodup : (entries.map Prod.snd).Nodup
  index_not_mem : ∀ entry ∈ entries, entry.1 ∉ m.indices
  name_not_mem : ∀ entry ∈ entries, entry.2 ∉ m.names

theorem placeAll_cons (m : Numbering) (entry : Int × String) (entries : List (Int × String)) :
    m.placeAll (entry :: entries) = (m.place entry.2 entry.1).placeAll entries := rfl

theorem mem_entries_placeAll {entry : Int × String} :
    entry ∈ (m.placeAll entries).entries ↔ entry ∈ m.entries ∨ entry ∈ entries := by
  induction entries generalizing m with
  | nil => simp [placeAll]
  | cons first entries ih =>
      rw [placeAll_cons, ih, mem_entries_place, List.mem_cons, or_assoc, or_left_comm]

theorem mem_names_place {other : String} :
    other ∈ (m.place name i).names ↔ other = name ∨ other ∈ m.names := by
  rw [names, place, ((insertEntry_perm ..).map Prod.snd).mem_iff]
  exact List.mem_cons

/-- After the first of new entries is placed, the others are still new. -/
theorem Fresh.tail (h : m.Fresh ((i, name) :: entries)) : (m.place name i).Fresh entries := by
  obtain ⟨hindex, hindices⟩ := List.nodup_cons.mp h.indices_nodup
  obtain ⟨hname, hnames⟩ := List.nodup_cons.mp h.names_nodup
  refine ⟨fun entry he => h.positive entry (List.mem_cons_of_mem _ he), hindices, hnames, ?_, ?_⟩
  · intro entry he hmem
    rcases mem_indices_place.mp hmem with hsame | hmem
    · exact hindex (List.mem_map.mpr ⟨entry, he, hsame⟩)
    · exact h.index_not_mem entry (List.mem_cons_of_mem _ he) hmem
  · intro entry he hmem
    rcases mem_names_place.mp hmem with hsame | hmem
    · exact hname (List.mem_map.mpr ⟨entry, he, hsame⟩)
    · exact h.name_not_mem entry (List.mem_cons_of_mem _ he) hmem

theorem nameOf?_eq_none_iff : m.nameOf? i = none ↔ i ∉ m.indices := by
  rw [nameOf?, List.lookup_eq_none_iff, indices]
  constructor
  · intro h hmem
    obtain ⟨entry, he, rfl⟩ := List.mem_map.mp hmem
    simpa using h entry he
  · intro h entry he
    simpa using fun hsame : i = entry.1 => h (hsame ▸ List.mem_map_of_mem he)

theorem insert_of_fresh (h : m.Fresh ((i, name) :: entries)) :
    m.insert name i = .ok (m.place name i) := by
  have hpositive : 0 < i := h.positive _ List.mem_cons_self
  have hname := indexOf?_eq_none_iff.mpr (h.name_not_mem _ List.mem_cons_self)
  have hindex := nameOf?_eq_none_iff.mpr (h.index_not_mem _ List.mem_cons_self)
  rw [insert, if_neg (by omega), hname, hindex]

/-- What is inserted is the only new entry afterwards. -/
theorem mem_entries_of_insert (hm : m.Valid) (h : m.insert name i = .ok n) {entry : Int × String} :
    entry ∈ n.entries ↔ entry = (i, name) ∨ entry ∈ m.entries := by
  unfold insert at h
  split at h
  · contradiction
  · split at h
    · next existing _ hexisting =>
        split at h
        · next hsame =>
            obtain rfl := eq_of_beq hsame
            obtain rfl := Except.ok.inj h
            exact (or_iff_right_of_imp fun he => he ▸ hm.indexOf?_eq_some_iff.mp hexisting).symm
        · contradiction
    · contradiction
    · exact Except.ok.inj h ▸ mem_entries_place

/-! ### Inserting many entries -/

/-- Gives names certain indices, one after the other. -/
def insertAll (m : Numbering) (entries : List (Int × String)) : Except Fault Numbering :=
  entries.foldlM (fun m entry => m.insert entry.2 entry.1) m

theorem insertAll_cons (m : Numbering) (entry : Int × String) (entries : List (Int × String)) :
    m.insertAll (entry :: entries) = m.insert entry.2 entry.1 >>= fun n => n.insertAll entries :=
  rfl

theorem insertAll_singleton (m : Numbering) (entry : Int × String) :
    m.insertAll [entry] = m.insert entry.2 entry.1 := by
  rw [insertAll_cons]
  cases m.insert entry.2 entry.1 <;> rfl

theorem insertAll_append (m : Numbering) (first second : List (Int × String)) :
    m.insertAll (first ++ second) = m.insertAll first >>= fun n => n.insertAll second :=
  List.foldlM_append

theorem insertAll_of_fresh (h : m.Fresh entries) :
    m.insertAll entries = .ok (m.placeAll entries) := by
  induction entries generalizing m with
  | nil => rfl
  | cons entry entries ih =>
      rw [insertAll_cons, insert_of_fresh h]
      exact ih h.tail

/-- What is inserted comes to the entries, and nothing else. -/
theorem mem_entries_insertAll (hm : m.Valid) (h : m.insertAll entries = .ok n) :
    n.Valid ∧ ∀ entry, entry ∈ n.entries ↔ entry ∈ m.entries ∨ entry ∈ entries := by
  induction entries generalizing m with
  | nil =>
      obtain rfl := Except.ok.inj h
      exact ⟨hm, fun entry => (or_iff_left List.not_mem_nil).symm⟩
  | cons first entries ih =>
      rw [insertAll_cons] at h
      obtain ⟨grown, hfirst, hrest⟩ := except_bind_eq_ok h
      obtain ⟨hn, hentries⟩ := ih (grows_insert hm hfirst).valid hrest
      refine ⟨hn, fun entry => ?_⟩
      rw [hentries, mem_entries_of_insert hm hfirst, List.mem_cons, or_assoc, or_left_comm]

/-- An entry of a valid numbering can be inserted into every part of it. -/
theorem exists_insert_eq_ok {whole : Numbering} (hm : m.Valid) (hwhole : whole.Valid)
    (hpart : m.entries ⊆ whole.entries) (hentry : (i, name) ∈ whole.entries) :
    ∃ n, m.insert name i = .ok n := by
  have hpositive : 0 < i := hwhole.positive i (List.mem_map_of_mem hentry)
  rw [insert, if_neg (by omega)]
  cases hname : m.indexOf? name with
  | some existing =>
      have hsame : existing = i := by
        have hexisting := hwhole.indexOf?_eq_some_iff.mpr (hpart (hm.indexOf?_eq_some_iff.mp hname))
        rw [hwhole.indexOf?_eq_some_iff.mpr hentry] at hexisting
        exact (Option.some.inj hexisting).symm
      exact ⟨m, if_pos (beq_iff_eq.mpr hsame)⟩
  | none =>
      cases hindex : m.nameOf? i with
      | none => exact ⟨_, rfl⟩
      | some other =>
          have hother := hm.nameOf?_eq_some_iff.mp hindex
          have hsame : other = name := by
            have hnamed := hwhole.nameOf?_eq_some_iff.mpr (hpart hother)
            rw [hwhole.nameOf?_eq_some_iff.mpr hentry] at hnamed
            exact (Option.some.inj hnamed).symm
          rw [hm.indexOf?_eq_some_iff.mpr (hsame ▸ hother)] at hname
          contradiction

/-- All entries of a valid numbering can be inserted into every part of it. -/
theorem exists_insertAll_eq_ok {whole : Numbering} (hm : m.Valid) (hwhole : whole.Valid)
    (hpart : m.entries ⊆ whole.entries) (hentries : entries ⊆ whole.entries) :
    ∃ n, m.insertAll entries = .ok n := by
  induction entries generalizing m with
  | nil => exact ⟨m, rfl⟩
  | cons entry entries ih =>
      obtain ⟨hentry, hrest⟩ := List.cons_subset.mp hentries
      obtain ⟨grown, hgrown⟩ := exists_insert_eq_ok hm hwhole hpart hentry
      rw [insertAll_cons, hgrown]
      refine ih (grows_insert hm hgrown).valid (fun other hother => ?_) hrest
      rcases (mem_entries_of_insert hm hgrown).mp hother with rfl | hother
      · exact hentry
      · exact hpart hother

/-! ### Numberings without given up indices -/

/-- A valid numbering whose largest index has a name, unless there are none. -/
def Exact (m : Numbering) : Prop := m.Remembers {i | m.Mapped i}

theorem exact_empty : empty.Exact := remembers_empty

theorem exact_of_grows (hm : m.Exact) (h : m.Grows n) : n.Exact := by
  refine ⟨h.valid, ?_, ?_⟩
  · rcases h.maxIndex_cases with hsame | hmem
    · rw [hsame]
      refine hm.greatest.1.imp_right fun hmem => ?_
      exact h.valid.mapped_iff.mpr
        (List.map_subset Prod.fst h.entries_subset (hm.valid.mapped_iff.mp hmem))
    · exact Or.inr (h.valid.mapped_iff.mpr hmem)
  · rintro i (rfl | hi)
    · exact Int.le_trans hm.nonneg h.maxIndex_le
    · exact h.valid.bounded i (h.valid.mapped_iff.mp hi)

theorem Exact.placeAll (hm : m.Exact) (h : m.Fresh entries) : (m.placeAll entries).Exact := by
  induction entries generalizing m with
  | nil => exact hm
  | cons entry entries ih =>
      refine ih (exact_of_grows hm ?_) h.tail
      exact grows_place hm.valid (h.name_not_mem _ List.mem_cons_self)
        (h.positive _ List.mem_cons_self) (h.index_not_mem _ List.mem_cons_self)

theorem Exact.insertAll (hm : m.Exact) (h : m.insertAll entries = .ok n) : n.Exact := by
  induction entries generalizing m with
  | nil => exact Except.ok.inj h ▸ hm
  | cons entry entries ih =>
      rw [insertAll_cons] at h
      obtain ⟨grown, hgrown, hrest⟩ := except_bind_eq_ok h
      exact ih (exact_of_grows hm (grows_insert hm.valid hgrown)) hrest

/-- Two numberings without given up indices are the same if they have the same entries. -/
theorem Exact.eq_of_mem_iff (hm : m.Exact) (hn : n.Exact)
    (h : ∀ entry, entry ∈ m.entries ↔ entry ∈ n.entries) : m = n := by
  have hentries := hm.valid.entries_eq_of_mem_iff hn.valid h
  have hmapped : {i | m.Mapped i} = {i | n.Mapped i} := by
    ext i
    simp only [Mapped, nameOf?, hentries]
  have hmax := hm.greatest.unique (hmapped ▸ hn.greatest)
  cases m
  cases n
  simp_all

/-! ### Numbering names in turn -/

theorem insertEntry_of_lt (h : ∀ entry ∈ entries, entry.1 < i) :
    insertEntry i name entries = entries ++ [(i, name)] := by
  induction entries with
  | nil => rfl
  | cons entry entries ih =>
      obtain ⟨hfirst, hrest⟩ := List.forall_mem_cons.mp h
      rw [insertEntry, if_neg (Int.not_lt.mpr (Int.le_of_lt hfirst)), ih hrest, List.cons_append]

/-- A new name is placed behind all others. -/
theorem ofNames_concat {names : List String} (hnew : name ∉ names) :
    ofNames (names ++ [name]) = (ofNames names).place name (names.eraseDups.length + 1) := by
  have hdistinct : (names ++ [name]).eraseDups = names.eraseDups ++ [name] := by
    rw [eraseDups_concat, if_neg (by simpa using hnew)]
  have hlast : ∀ entry ∈ (ofNames names).entries, entry.1 < names.eraseDups.length + 1 := by
    intro entry hentry
    exact Int.lt_add_one_of_le
      ((valid_ofNames names).bounded _ (List.mem_map_of_mem hentry))
  rw [place, insertEntry_of_lt hlast]
  simp only [ofNames, hdistinct, List.zipIdx_append, List.map_append, List.length_append]
  congr 1
  · simp
  · rw [List.length_singleton]
    omega

theorem ofNames_concat_of_mem {names : List String} (hold : name ∈ names) :
    ofNames (names ++ [name]) = ofNames names := by
  rw [ofNames, eraseDups_concat, if_pos hold]
  rfl

/-- Ensuring one more index numbers one more name. -/
theorem ensure_ofNames {names : List String}
    (hroom : ((names ++ [name]).eraseDups.length : Int) ≤ largestIndex) :
    ∃ i, (ofNames names).ensure name = .ok (i, ofNames (names ++ [name])) := by
  by_cases hold : name ∈ names
  · have hknown : ((ofNames names).indexOf? name).isSome = true := by
      simpa [indexOf?_isSome_iff, names_ofNames] using hold
    obtain ⟨i, hi⟩ := Option.isSome_iff_exists.mp hknown
    exact ⟨i, by rw [ensure, hi, ofNames_concat_of_mem hold]⟩
  · have hnew : (ofNames names).indexOf? name = none := by
      simpa [indexOf?_eq_none_iff, names_ofNames] using hold
    have hless : (ofNames names).maxIndex < largestIndex := by
      rw [eraseDups_concat, if_neg hold, List.length_append, List.length_singleton] at hroom
      exact Int.lt_of_lt_of_le (Int.lt_add_one_of_le (Int.le_refl _)) hroom
    exact ⟨_, by rw [ensure, hnew, ofNames_concat hold]; exact if_pos hless⟩

/-- Names are numbered by ensuring an index for each of them in turn, as long as there are
indices. -/
theorem ensureAll_ofNames {done names : List String}
    (hroom : ((done ++ names).eraseDups.length : Int) ≤ largestIndex) :
    (ofNames done).ensureAll names = (.ok (), ofNames (done ++ names)) := by
  induction names generalizing done with
  | nil => rw [List.append_nil, ensureAll]
  | cons name names ih =>
      rw [List.append_cons] at hroom ⊢
      have hfirst := length_eraseDups_le_append (done ++ [name]) names
      have hroom' : ((done ++ [name]).eraseDups.length : Int) ≤ largestIndex := by omega
      obtain ⟨i, hensure⟩ := ensure_ofNames hroom'
      rw [ensureAll, hensure]
      exact ih hroom

theorem ensureAll_empty {names : List String}
    (hroom : (names.eraseDups.length : Int) ≤ largestIndex) :
    empty.ensureAll names = (.ok (), ofNames names) := by
  have hall : (ofNames []).ensureAll names = (.ok (), ofNames ([] ++ names)) :=
    ensureAll_ofNames hroom
  exact hall

end Numbering

end ClauseForm
