import ClauseForm.Literals.Naming
import ClauseForm.Proofs.Repetitions

/-!
From names to literals and back.

In a valid numbering a binding of a truth value and the literal that it makes true determine each
other.  `toBindings_ofBindings_spec` says what that means for whole collections, whose literals are
in the order of their kind and may be repeated or contradict each other.
-/

namespace ClauseForm

variable {o : LiteralOrder} {m : Numbering} {v : Bindings} {ls : List Int} {k l : Int}

namespace Literals

/-- The literals whose sign is not that of the first literal of their index. -/
def dissenting (ls : List Int) : List Int :=
  ls.filter fun l => ls.find? (fun k => k.natAbs == l.natAbs) != some l

theorem exists_find?_natAbs (hl : l ∈ ls) :
    ∃ k ∈ ls, k.natAbs = l.natAbs ∧ ls.find? (fun k => k.natAbs == l.natAbs) = some k := by
  cases hfirst : ls.find? fun k => k.natAbs == l.natAbs with
  | none => simpa using List.find?_eq_none.mp hfirst l hl
  | some k =>
      exact ⟨k, List.mem_of_find?_eq_some hfirst, by simpa using List.find?_some hfirst, rfl⟩

/-- Unless an index occurs in both signs, no literal dissents. -/
theorem dissenting_eq_nil_iff (hnonzero : ∀ l ∈ ls, l ≠ 0) :
    dissenting ls = [] ↔ ¬ Clause.Opposed ls := by
  simp only [dissenting, List.filter_eq_nil_iff, bne_iff_ne, not_not]
  constructor
  · rintro hfirst ⟨l, hl, hpositive, hopposite⟩
    have hother := hfirst (-l) hopposite
    rw [Int.natAbs_neg, hfirst l hl, Option.some.injEq] at hother
    omega
  · intro h l hl
    obtain ⟨k, hk, hindex, hfirst⟩ := exists_find?_natAbs hl
    rcases Int.natAbs_eq_natAbs_iff.mp hindex with rfl | rfl
    · exact hfirst
    · exact absurd (Clause.opposed_iff.mpr ⟨l, hl, hnonzero l hl, hk⟩) h

/-- The name of a literal with the truth value that makes it true. -/
def entryOf (m : Numbering) (l : Int) : String × Value :=
  ((m.nameOfLiteral? l).getD "", .truth (decide (0 < l)))

/-- All literals have names. -/
def Named (m : Numbering) (ls : List Int) : Prop := ∀ l ∈ ls, (m.nameOfLiteral? l).isSome

theorem binding_eq_ok_iff {entry : String × Value} :
    binding m l = .ok entry ↔ (m.nameOfLiteral? l).isSome ∧ entryOf m l = entry := by
  rw [binding, entryOf]
  cases m.nameOfLiteral? l <;> simp

theorem binding_of_named (h : (m.nameOfLiteral? l).isSome) : binding m l = .ok (entryOf m l) :=
  binding_eq_ok_iff.mpr ⟨h, rfl⟩

end Literals

open Literals

namespace Numbering

/-- A binding and a literal determine each other. -/
theorem Valid.ofBinding_eq_ok_iff (hm : m.Valid) {entry : String × Value} :
    ofBinding m entry = .ok l ↔ binding m l = .ok entry := by
  obtain ⟨name, value⟩ := entry
  constructor
  · intro h
    cases value with
    | integer i => contradiction
    | truth positive =>
        obtain ⟨hname, hsign⟩ := hm.nameOfLiteral?_of_literalOf h
        rw [binding, hname, hsign]
  · intro h
    rw [binding] at h
    split at h
    · contradiction
    · next other hname =>
        obtain ⟨rfl, rfl⟩ := Prod.mk.inj (Except.ok.inj h)
        exact hm.literalOf_of_nameOfLiteral? hname

theorem Valid.ne_zero_of_isSome (hm : m.Valid) (h : (m.nameOfLiteral? l).isSome) : l ≠ 0 := by
  obtain ⟨name, hname⟩ := Option.isSome_iff_exists.mp h
  have hentry := hm.nameOf?_eq_some_iff.mp hname
  have hpositive : 0 < (l.natAbs : Int) := hm.positive _ (List.mem_map_of_mem hentry)
  omega

/-- Named literals have one name exactly if they have one index. -/
theorem Valid.entryOf_fst_eq_iff (hm : m.Valid) (hk : (m.nameOfLiteral? k).isSome)
    (hl : (m.nameOfLiteral? l).isSome) :
    (entryOf m k).1 = (entryOf m l).1 ↔ k.natAbs = l.natAbs := by
  obtain ⟨name, hkname⟩ := Option.isSome_iff_exists.mp hk
  obtain ⟨other, hlname⟩ := Option.isSome_iff_exists.mp hl
  simp only [entryOf, hkname, hlname, Option.getD_some]
  constructor
  · rintro rfl
    have hindex := hm.indexOf?_eq_some_iff.mpr (hm.nameOf?_eq_some_iff.mp hkname)
    rw [hm.indexOf?_eq_some_iff.mpr (hm.nameOf?_eq_some_iff.mp hlname), Option.some.injEq] at hindex
    exact_mod_cast hindex.symm
  · intro hindex
    rw [nameOfLiteral?, hindex] at hkname
    exact Option.some.inj (hkname.symm.trans hlname)

/-- Different literals have different entries. -/
theorem Valid.eq_of_entryOf_eq (hm : m.Valid) (hk : (m.nameOfLiteral? k).isSome)
    (hl : (m.nameOfLiteral? l).isSome) (h : entryOf m k = entryOf m l) : k = l := by
  have hback := hm.ofBinding_eq_ok_iff.mpr (binding_of_named hk)
  rw [h, hm.ofBinding_eq_ok_iff.mpr (binding_of_named hl)] at hback
  exact (Except.ok.inj hback).symm

end Numbering

namespace Literals

theorem collect_binding (h : Named m ls) :
    Faults.collect (ls.map (binding m)) = .ok (ls.map (entryOf m)) := by
  rw [Faults.collect_eq_ok_iff, List.map_map]
  exact List.map_congr_left fun l hl => binding_of_named (h l hl)

/-- The entries of named literals stand for these literals. -/
theorem ofBindings_map_entryOf (hm : m.Valid) (h : Named m ls) :
    (ofBindings ⟨ls.map (entryOf m)⟩ m : Except Faults (Literals o)) = .ok (arranged ls) := by
  have hback : (ls.map (entryOf m)).map (ofBinding m) = ls.map .ok := by
    rw [List.map_map]
    exact List.map_congr_left fun l hl => hm.ofBinding_eq_ok_iff.mpr (binding_of_named (h l hl))
  rw [ofBindings, Faults.collect_eq_ok_iff.mpr hback]
  rfl

theorem lookup_map_entryOf (hm : m.Valid) (h : Named m ls) (hl : (m.nameOfLiteral? l).isSome) :
    (ls.map (entryOf m)).lookup (entryOf m l).1 =
      (ls.find? fun k => k.natAbs == l.natAbs).map fun k => (entryOf m k).2 := by
  induction ls with
  | nil => rfl
  | cons k ls ih =>
      obtain ⟨hk, hrest⟩ := List.forall_mem_cons.mp h
      have hiff := hm.entryOf_fst_eq_iff hk hl
      rw [List.map_cons, List.lookup_cons, List.find?_cons, ih hrest]
      by_cases hindex : k.natAbs = l.natAbs
      · rw [hiff.mpr hindex, hindex, BEq.rfl, BEq.rfl]
        rfl
      · have hname : ((entryOf m l).1 == (entryOf m k).1) = false :=
          beq_false_of_ne fun hequal => hindex (hiff.mp hequal.symm)
        rw [hname, beq_false_of_ne hindex]

/-- Among the entries of named literals those clash whose literals dissent. -/
theorem clashes_map_entryOf (hm : m.Valid) (h : Named m ls) :
    Bindings.clashes (ls.map (entryOf m)) =
      (dissenting ls).map fun l => .nameTaken (entryOf m l).1 := by
  rw [Bindings.clashes, List.filter_map, List.map_map, dissenting]
  refine congrArg (List.map _) (List.filter_congr fun l hl => ?_)
  obtain ⟨k, hk, hindex, hfirst⟩ := exists_find?_natAbs hl
  have hiff : (entryOf m k).2 = (entryOf m l).2 ↔ k = l := by
    refine ⟨fun hvalue => ?_, fun hequal => by rw [hequal]⟩
    have hname := (hm.entryOf_fst_eq_iff (h k hk) (h l hl)).mpr hindex
    exact hm.eq_of_entryOf_eq (h k hk) (h l hl) (Prod.ext hname hvalue)
  rw [Function.comp, lookup_map_entryOf hm h (h l hl), hfirst, Option.map_some, Bool.eq_iff_iff]
  simp [hiff]

theorem Named.arrange (h : Named m ls) : Named m (o.arrange ls) := fun l hl =>
  h l ((o.arrange_perm ls).mem_iff.mp hl)

theorem toBindings_arranged (h : Named m ls) :
    (arranged ls : Literals o).toBindings m =
      Bindings.ofPairs ((o.arrange ls).map (entryOf m)) := by
  rw [toBindings, toList_arranged, collect_binding h.arrange]
  rfl

/-- Named literals become bindings, unless some of them dissent. -/
theorem toBindings_arranged_eq (hm : m.Valid) (h : Named m ls) :
    (arranged ls : Literals o).toBindings m =
      Faults.barring ((dissenting (o.arrange ls)).map fun l => .nameTaken (entryOf m l).1)
        ⟨(o.arrange ls).eraseDups.map (entryOf m)⟩ := by
  have hinjective : ∀ k ∈ o.arrange ls, ∀ l ∈ o.arrange ls, entryOf m k = entryOf m l → k = l :=
    fun k hk l hl => hm.eq_of_entryOf_eq (h.arrange k hk) (h.arrange l hl)
  rw [toBindings_arranged h, Bindings.ofPairs_eq, clashes_map_entryOf hm h.arrange,
    eraseDups_map_of_injective hinjective]

/-- Bindings of truth values to names with indices are the entries of their literals. -/
theorem exists_literals_of_bound (hm : m.Valid)
    (hbound : ∀ entry ∈ v.toList, entry.1 ∈ m.names ∧ ∃ positive, entry.2 = .truth positive) :
    ∃ ls, Named m ls ∧ v.toList = ls.map (entryOf m) := by
  have hliteral : ∀ entry ∈ v.toList, ∃ l, ofBinding m entry = .ok l := by
    rintro ⟨name, value⟩ hentry
    obtain ⟨hname, positive, rfl⟩ := hbound _ hentry
    obtain ⟨i, hi⟩ := Option.isSome_iff_exists.mp (Numbering.indexOf?_isSome_iff.mpr hname)
    exact ⟨_, by rw [ofBinding, bindingLiteral, Numbering.literalOf, hi]⟩
  choose! literal hliteral using hliteral
  have hback : ∀ entry ∈ v.toList, _ := fun entry hentry =>
    binding_eq_ok_iff.mp (hm.ofBinding_eq_ok_iff.mp (hliteral entry hentry))
  refine ⟨v.toList.map literal, ?_, ?_⟩
  · exact List.forall_mem_map.mpr fun entry hentry => (hback entry hentry).1
  rw [List.map_map]
  exact (List.map_id _).symm.trans
    (List.map_congr_left fun entry hentry => (hback entry hentry).2.symm)

/-- Bindings of truth values to names with indices become literals and, from these, bindings again;
only their order may be another one. -/
theorem exists_toBindings_of_bound (hm : m.Valid) (hv : v.Valid)
    (hbound : ∀ entry ∈ v.toList, entry.1 ∈ m.names ∧ ∃ positive, entry.2 = .truth positive) :
    ∃ (b : Literals o) (w : Bindings), ofBindings v m = .ok b ∧ b.toBindings m = .ok w ∧
      (w == v) = true ∧ (o = .asGiven → w = v) := by
  obtain ⟨ls, hls, hlist⟩ := exists_literals_of_bound hm hbound
  obtain rfl : v = ⟨ls.map (entryOf m)⟩ := congrArg Bindings.mk hlist
  have hperm : ((o.arrange ls).map (entryOf m)).Perm (ls.map (entryOf m)) :=
    (o.arrange_perm ls).map _
  have hnodup : (((o.arrange ls).map (entryOf m)).map Prod.fst).Nodup :=
    (hperm.map Prod.fst).nodup_iff.mpr hv
  refine ⟨arranged ls, ⟨(o.arrange ls).map (entryOf m)⟩, ofBindings_map_entryOf hm hls, ?_, ?_, ?_⟩
  · rw [toBindings_arranged hls, Bindings.ofPairs_of_nodup hnodup]
  · exact Bindings.beq_of_perm hv hperm
  · rintro rfl
    rfl

theorem Named.ne_zero (h : Named m ls) (hm : m.Valid) : ∀ l ∈ ls, l ≠ 0 := fun l hl =>
  hm.ne_zero_of_isSome (h l hl)

/-- Named literals that can be cleaned come back clean. -/
theorem exists_ofBindings_of_cleaned? (hm : m.Valid) (h : Named m ls) {c : Literals o}
    (hclean : (arranged ls : Literals o).cleaned? = some c) :
    ∃ v, (arranged ls : Literals o).toBindings m = .ok v ∧ ofBindings v m = .ok c := by
  have hnonzero : ∀ l ∈ (arranged ls : Literals o).toList, l ≠ 0 := h.arrange.ne_zero hm
  rw [cleaned?_arranged (h.ne_zero hm)] at hclean
  by_cases hopposed : Clause.Opposed (arranged ls : Literals o).toList
  · rw [reduced?_eq_none hopposed hnonzero] at hclean
    contradiction
  · rw [reduced?_eq_some hopposed hnonzero, Option.some.injEq] at hclean
    subst hclean
    have hagree := (dissenting_eq_nil_iff hnonzero).mpr hopposed
    have hnamed : Named m (o.arrange ls).eraseDups := fun l hl =>
      h.arrange l (List.mem_eraseDups.mp hl)
    refine ⟨_, ?_, ofBindings_map_entryOf hm hnamed⟩
    rw [toBindings_arranged_eq hm h, ← toList_arranged, hagree]
    rfl

/-- Named literals that contradict each other are refused: every one that dissents is a fault. -/
theorem toBindings_of_cleaned?_eq_none (hm : m.Valid) (h : Named m ls)
    (hclean : (arranged ls : Literals o).cleaned? = none) :
    ∃ fs, (arranged ls : Literals o).toBindings m = .error fs ∧
      fs.toList.map some =
        (dissenting (o.arrange ls)).map fun l => (m.nameOfLiteral? l).map .nameTaken := by
  have hnonzero : ∀ l ∈ (arranged ls : Literals o).toList, l ≠ 0 := h.arrange.ne_zero hm
  have hdissent : dissenting (o.arrange ls) ≠ [] := by
    intro hagree
    have hopposed := (dissenting_eq_nil_iff hnonzero).mp hagree
    rw [cleaned?_arranged (h.ne_zero hm), reduced?_eq_some hopposed hnonzero] at hclean
    contradiction
  obtain ⟨fs, hresult, hfaults⟩ := Faults.exists_barring_eq_error
    (mt List.map_eq_nil_iff.mp hdissent) (Bindings.mk ((o.arrange ls).eraseDups.map (entryOf m)))
  refine ⟨fs, (toBindings_arranged_eq hm h).trans hresult, ?_⟩
  rw [hfaults, List.map_map]
  refine List.map_congr_left fun l hl => ?_
  obtain ⟨name, hname⟩ := Option.isSome_iff_exists.mp (h.arrange l (List.mem_of_mem_filter hl))
  simp [entryOf, hname]

/-- Literals without names are refused: every one of them is a fault. -/
theorem toBindings_of_unnamed (h : ∃ l ∈ ls, m.nameOfLiteral? l = none) :
    ∃ fs, (arranged ls : Literals o).toBindings m = .error fs ∧
      fs.toList = ((o.arrange ls).filter fun l => (m.nameOfLiteral? l).isNone).map
        fun l => .unknownIndex l.natAbs := by
  have hfault : ∀ l, Faults.ofResult? (binding m l) =
      if (m.nameOfLiteral? l).isSome then none else some (.unknownIndex l.natAbs) := by
    intro l
    rw [binding]
    cases m.nameOfLiteral? l <;> rfl
  have hsome : ((o.arrange ls).filter fun l => (m.nameOfLiteral? l).isNone) ≠ [] := by
    obtain ⟨l, hl, hnone⟩ := h
    refine List.ne_nil_of_mem (a := l) (List.mem_filter.mpr ⟨?_, by simp [hnone]⟩)
    exact (o.arrange_perm ls).mem_iff.mpr hl
  obtain ⟨fs, hresult, hlist⟩ := Faults.exists_barring_eq_error (mt List.map_eq_nil_iff.mp hsome)
    ((o.arrange ls).filterMap fun l => (binding m l).toOption)
  refine ⟨fs, ?_, hlist⟩
  rw [toBindings, toList_arranged, Faults.collect_map, Faults.filterMap_eq_map_filter hfault]
  simp only [Option.not_isSome, hresult]
  rfl

/-- Going from names to literals and back, and the other way round, changes nothing but what the
order of a collection and its repetitions amount to: bindings of truth values come back as they
were, and named literals come back reduced.  Contradictory literals are refused with a fault for
each one that dissents, and unnamed ones with a fault for each of them. -/
theorem toBindings_ofBindings_spec (hm : m.Valid) (o : LiteralOrder) :
    (∀ v : Bindings, v.Valid →
      (∀ entry ∈ v.toList, entry.1 ∈ m.names ∧ ∃ positive, entry.2 = .truth positive) →
        ∃ (b : Literals o) (w : Bindings), ofBindings v m = .ok b ∧ b.toBindings m = .ok w ∧
          (w == v) = true ∧ (o = .asGiven → w = v)) ∧
    (∀ (ls : List Int) (b : Literals o), b = arranged ls → (∀ l ∈ ls, (m.nameOfLiteral? l).isSome) →
      (∀ c, b.cleaned? = some c → ∃ v, b.toBindings m = .ok v ∧ ofBindings v m = .ok c) ∧
      (b.cleaned? = none → ∃ fs, b.toBindings m = .error fs ∧
        fs.toList.map some =
          (dissenting b.toList).map fun l => (m.nameOfLiteral? l).map .nameTaken)) ∧
    (∀ (ls : List Int) (b : Literals o), b = arranged ls → (∃ l ∈ ls, m.nameOfLiteral? l = none) →
      ∃ fs, b.toBindings m = .error fs ∧
        fs.toList = (b.toList.filter fun l => (m.nameOfLiteral? l).isNone).map
          fun l => .unknownIndex l.natAbs) := by
  refine ⟨fun v hv hbound => exists_toBindings_of_bound hm hv hbound, ?_, ?_⟩
  · rintro ls _ rfl hnamed
    exact ⟨fun c => exists_ofBindings_of_cleaned? hm hnamed,
      toBindings_of_cleaned?_eq_none hm hnamed⟩
  · rintro ls _ rfl hunnamed
    exact toBindings_of_unnamed hunnamed

namespace NamingWitness

/-- Two names with the indices 1 and 2. -/
def sample : Numbering := .ofNames ["a", "b"]

/-- The names bound against the order of their indices. -/
def bound : Bindings := ⟨[("b", .truth true), ("a", .truth false)]⟩

theorem toBindings_ofBindings_spec_sample :
    sample.Valid ∧
      (∃ (b : Assignment) (w : Bindings), ofBindings bound sample = .ok b ∧
        b.toBindings sample = .ok w ∧ (w == bound) = true ∧ w = bound) ∧
      (∃ v, (arranged [2, -1, 2] : Assignment).toBindings sample = .ok v ∧
        ofBindings v sample = .ok (arranged [2, -1] : Assignment)) ∧
      (∃ fs, (arranged [2, -1, -2] : Assignment).toBindings sample = .error fs ∧
        fs.toList.map some = [some (.nameTaken "b")]) ∧
      ∃ fs, (arranged [3, 1, -3] : Assignment).toBindings sample = .error fs ∧
        fs.toList = [.unknownIndex 3, .unknownIndex 3] := by
  have hsample : sample.Valid := Numbering.valid_ofNames _
  obtain ⟨hbound, hnamed, hunnamed⟩ := toBindings_ofBindings_spec hsample .asGiven
  refine ⟨hsample, ?_, ?_, ?_, ?_⟩
  · have hvalid : bound.Valid := by simp [Bindings.Valid, Bindings.names, bound]
    obtain ⟨b, w, hb, hw, hequal, hsame⟩ := hbound bound hvalid (by decide)
    exact ⟨b, w, hb, hw, hequal, hsame rfl⟩
  · exact (hnamed [2, -1, 2] _ rfl (by decide)).1 _ (by decide)
  · exact (hnamed [2, -1, -2] _ rfl (by decide)).2 (by decide)
  · exact hunnamed [3, 1, -3] _ rfl ⟨3, by decide, by decide⟩

end NamingWitness

end Literals

end ClauseForm
