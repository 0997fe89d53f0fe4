import ClauseForm.Numbering
import ClauseForm.Proofs.Faults
import ClauseForm.Proofs.FirstOccurrences

/-!
Valid numberings.

In a valid numbering the indices are positive and increase, and no name has two of them, so names
and indices belong to each other one to one.
-/

namespace ClauseForm

/-- In a list of pairs with different keys, every pair is found under its key. -/
theorem lookup_eq_some_iff_mem {α β : Type} [BEq α] [LawfulBEq α] {entries : List (α × β)}
    (hkeys : (entries.map Prod.fst).Nodup) {a : α} {b : β} :
    entries.lookup a = some b ↔ (a, b) ∈ entries := by
  induction entries with
  | nil => simp
  | cons entry entries ih =>
      obtain ⟨c, d⟩ := entry
      rw [List.map_cons, List.nodup_cons] at hkeys
      rw [List.lookup_cons, List.mem_cons, Prod.mk.injEq]
      by_cases hequal : a = c
      · subst hequal
        have hother : (a, b) ∉ entries := fun hmem =>
          hkeys.1 (List.mem_map.mpr ⟨(a, b), hmem, rfl⟩)
        simp [hother, eq_comm]
      · have hdiffer : (a == c) = false := by simpa using hequal
        simp [hdiffer, hequal, ih hkeys.2]

namespace Numbering

/-- The indices increase between 1 and the largest index, and the names are pairwise different. -/
structure Valid (m : Numbering) : Prop where
  positive : ∀ i ∈ m.indices, 0 < i
  increasing : m.indices.Pairwise (· < ·)
  bounded : ∀ i ∈ m.indices, i ≤ m.maxIndex
  names_nodup : m.names.Nodup

variable {m n : Numbering} {name : String} {i : Int}

theorem Valid.indices_nodup (hm : m.Valid) : m.indices.Nodup :=
  hm.increasing.imp fun h => Int.ne_of_lt h

theorem Valid.entries_nodup (hm : m.Valid) : m.entries.Nodup :=
  .of_map Prod.fst hm.indices_nodup

/-- Entries that increase are determined by which there are. -/
theorem Valid.entries_eq_of_mem_iff (hm : m.Valid) (hn : n.Valid)
    (h : ∀ entry, entry ∈ m.entries ↔ entry ∈ n.entries) : m.entries = n.entries := by
  have hperm := (List.perm_ext_iff_of_nodup hm.entries_nodup hn.entries_nodup).mpr h
  refine hperm.eq_of_pairwise ?_ (List.pairwise_map.mp hm.increasing)
    (List.pairwise_map.mp hn.increasing)
  intro a b _ _ hab hba
  exact absurd (Int.lt_trans hab hba) (Int.lt_irrefl _)

theorem indexOf?_eq_lookup (m : Numbering) (name : String) :
    m.indexOf? name = (m.entries.map Prod.swap).lookup name := by
  rw [indexOf?]
  induction m.entries with
  | nil => rfl
  | cons entry entries ih =>
      rw [List.find?_cons, List.map_cons, List.lookup_cons, ← ih, BEq.comm]
      cases h : name == entry.2 <;> simp [h]

/-- An index belongs to a name exactly if the pair is an entry. -/
theorem Valid.indexOf?_eq_some_iff (hm : m.Valid) :
    m.indexOf? name = some i ↔ (i, name) ∈ m.entries := by
  have hkeys : ((m.entries.map Prod.swap).map Prod.fst).Nodup := by
    simpa [Function.comp_def, names] using hm.names_nodup
  rw [indexOf?_eq_lookup, lookup_eq_some_iff_mem hkeys, List.mem_map]
  constructor
  · rintro ⟨⟨j, other⟩, hmem, hswap⟩
    obtain ⟨rfl, rfl⟩ := Prod.mk.inj hswap
    exact hmem
  · intro hmem
    exact ⟨_, hmem, rfl⟩

theorem Valid.nameOf?_eq_some_iff (hm : m.Valid) :
    m.nameOf? i = some name ↔ (i, name) ∈ m.entries :=
  lookup_eq_some_iff_mem hm.indices_nodup

theorem indexOf?_isSome_iff : (m.indexOf? name).isSome = true ↔ name ∈ m.names := by
  simp [indexOf?, names]

/-- A name has literals unless it has no index. -/
theorem ofResult?_literalOf (m : Numbering) (name : String) (positive : Bool) :
    Faults.ofResult? (m.literalOf name positive) =
      if (m.indexOf? name).isSome then none else some (.unknownName name) := by
  rw [literalOf]
  cases m.indexOf? name <;> rfl

/-- The literals of a name stand for the name, with their sign. -/
theorem Valid.nameOfLiteral?_of_literalOf (hm : m.Valid) {positive : Bool} {l : Int}
    (h : m.literalOf name positive = .ok l) :
    m.nameOfLiteral? l = some name ∧ decide (0 < l) = positive := by
  unfold literalOf at h
  split at h
  · rename_i i hi
    have hentry := hm.indexOf?_eq_some_iff.mp hi
    have hpositive : 0 < i := hm.positive i (List.mem_map_of_mem hentry)
    have hname := hm.nameOf?_eq_some_iff.mpr hentry
    obtain rfl := Except.ok.inj h
    have hsize : (i.natAbs : Int) = i := by omega
    cases positive with
    | true => simp [nameOfLiteral?, hsize, hname, hpositive]
    | false =>
        have hnegative : ¬ i < 0 := by omega
        simp [nameOfLiteral?, hsize, hname, hnegative]
  · contradiction

/-- A named literal is the literal of its name with its sign. -/
theorem Valid.literalOf_of_nameOfLiteral? (hm : m.Valid) {l : Int}
    (h : m.nameOfLiteral? l = some name) : m.literalOf name (decide (0 < l)) = .ok l := by
  have hentry := hm.nameOf?_eq_some_iff.mp h
  have hpositive : 0 < (l.natAbs : Int) := hm.positive _ (List.mem_map_of_mem hentry)
  rw [literalOf, hm.indexOf?_eq_some_iff.mpr hentry]
  refine congrArg Except.ok ?_
  split
  · next hl =>
      have := of_decide_eq_true hl
      omega
  · next hl =>
      have : ¬ 0 < l := by simpa using hl
      omega

theorem names_ofNames (names : List String) : (ofNames names).names = names.eraseDups := by
  simp [ofNames, Numbering.names, List.map_map, Function.comp_def]

theorem indices_ofNames (names : List String) :
    (ofNames names).indices =
      (List.range names.eraseDups.length).map fun i : Nat => (i : Int) + 1 := by
  rw [List.range_eq_range', ← List.zipIdx_map_snd, List.map_map]
  simp [ofNames, indices, List.map_map, Function.comp_def]

theorem valid_ofNames (names : List String) : (ofNames names).Valid where
  positive := by
    rw [indices_ofNames]
    intro i hi
    obtain ⟨k, -, rfl⟩ := List.mem_map.mp hi
    omega
  increasing := by
    rw [indices_ofNames, List.pairwise_map]
    exact List.pairwise_lt_range.imp fun h => by omega
  bounded := by
    rw [indices_ofNames]
    intro i hi
    obtain ⟨k, hk, rfl⟩ := List.mem_map.mp hi
    have := List.mem_range.mp hk
    simp only [ofNames]
    omega
  names_nodup := by
    rw [names_ofNames]
    exact nodup_eraseDups names

/-- A literal of numbered names stands for the name at the place that its index counts. -/
theorem nameOfLiteral?_ofNames_eq_some_iff {names : List String} (hnames : names.Nodup) {l : Int} :
    (ofNames names).nameOfLiteral? l = some name ↔
      ∃ k, l.natAbs = k + 1 ∧ names[k]? = some name := by
  rw [nameOfLiteral?, (valid_ofNames names).nameOf?_eq_some_iff]
  simp only [ofNames, eraseDups_eq_self hnames, List.mem_map, Prod.mk.injEq, Prod.exists,
    List.mem_zipIdx_iff_getElem?]
  constructor
  · rintro ⟨_, k, hk, hindex, rfl⟩
    exact ⟨k, by omega, hk⟩
  · rintro ⟨k, hindex, hk⟩
    exact ⟨name, k, hk, by omega, rfl⟩

end Numbering

end ClauseForm
