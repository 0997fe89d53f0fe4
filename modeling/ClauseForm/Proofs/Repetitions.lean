import ClauseForm.Literals.Reduced
import ClauseForm.Proofs.Bindings
import ClauseForm.Proofs.Faults
import ClauseForm.Proofs.FirstOccurrences
import ClauseForm.Proofs.ReducedClauses
import Mathlib.Data.List.Induction

/-!
Literals and pairs that are given repeatedly.

Reducing a collection of literals keeps each of them at its first place, unless an index occurs in
both signs.  Building bindings from pairs keeps each pair at its first place and reports every pair
whose name had another value first, so the order of the pairs decides nothing but the order of the
bindings.
-/

namespace ClauseForm

namespace Literals

variable {o : LiteralOrder} {ls kept : List Int}

/-- A literal whose negation is kept already or still to come ends the search.  Otherwise the new
literals are kept at their first places. -/
theorem reduceFrom_eq (hnonzero : ∀ l ∈ ls, l ≠ 0) :
    reduceFrom ls kept =
      if ∃ l ∈ ls, -l ∈ kept ++ ls then none
      else some (kept.reverse ++ (ls.removeAll kept).eraseDups) := by
  induction ls generalizing kept with
  | nil => simp [reduceFrom, List.removeAll]
  | cons l ls ih =>
      obtain ⟨hl, hrest⟩ := List.forall_mem_cons.mp hnonzero
      have hself : -l ≠ l := by omega
      rw [reduceFrom]
      by_cases hopposite : -l ∈ kept
      · simp [hopposite]
      have hskip : ¬ kept.contains (-l) = true := by simpa using hopposite
      rw [if_neg hskip]
      by_cases hold : l ∈ kept
      · have hiff : (∃ k ∈ l :: ls, -k ∈ kept ++ l :: ls) ↔ ∃ k ∈ ls, -k ∈ kept ++ ls := by
          grind
        have hremoved : (l :: ls).removeAll kept = ls.removeAll kept := by
          simp [List.removeAll, hold]
        rw [if_pos (by simpa using hold), ih hrest, hremoved]
        simp only [hiff]
      · have hiff : (∃ k ∈ l :: ls, -k ∈ kept ++ l :: ls) ↔ ∃ k ∈ ls, -k ∈ l :: kept ++ ls := by
          grind
        have hremoved : (l :: ls).removeAll kept = l :: ls.removeAll kept := by
          simp [List.removeAll, hold]
        rw [if_neg (by simpa using hold), ih hrest, hremoved, List.eraseDups_cons,
          removeAll_cons_right, List.reverse_cons, List.append_assoc]
        simp only [hiff]
        rfl

variable {c : Literals o}

theorem reduced?_eq_none (h : Clause.Opposed c.toList) (hnonzero : ∀ l ∈ c.toList, l ≠ 0) :
    c.reduced? = none := by
  obtain ⟨l, hl, -, hopposite⟩ := h
  rw [reduced?, reduceFrom_eq hnonzero, if_pos ⟨l, hl, hopposite⟩]
  rfl

theorem reduced?_eq_some (h : ¬ Clause.Opposed c.toList) (hnonzero : ∀ l ∈ c.toList, l ≠ 0) :
    c.reduced? = some (arranged c.toList.eraseDups) := by
  have hnone : ¬ ∃ l ∈ c.toList, -l ∈ [] ++ c.toList := by
    rintro ⟨l, hl, hopposite⟩
    exact h (Clause.opposed_iff.mpr ⟨l, hl, hnonzero l hl, hopposite⟩)
  have hall : c.toList.removeAll [] = c.toList := by simp [List.removeAll]
  rw [reduced?, reduceFrom_eq hnonzero, if_neg hnone, hall]
  rfl

/-- A clause is reduced in the same way as the other kinds of collections. -/
theorem clauseReduced?_eq (hnonzero : ∀ l ∈ ls, l ≠ 0) :
    Clause.reduced? (.arranged ls) = (arranged ls : Clause).reduced? := by
  have hperm := LiteralOrder.arrange_perm .byValue ls
  have hopposed : Clause.Opposed (arranged ls : Clause).toList ↔ Clause.Opposed ls := by
    simp only [Clause.Opposed, toList_arranged, hperm.mem_iff]
  have hnonzero' : ∀ l ∈ (arranged ls : Clause).toList, l ≠ 0 := fun l hl =>
    hnonzero l (mem_toList_arranged.mp hl)
  by_cases h : Clause.Opposed ls
  · rw [Clause.reduced?_eq_none_iff.mpr h, reduced?_eq_none (hopposed.mpr h) hnonzero']
  · rw [reduced?_eq_some (mt hopposed.mp h) hnonzero', Clause.reduced?_eq_some_iff]
    refine ⟨h, ?_, fun l => by rw [mem_toList_arranged, List.mem_eraseDups, mem_toList_arranged]⟩
    have hnodup : (LiteralOrder.byValue.arrange (arranged ls : Clause).toList.eraseDups).Nodup :=
      (LiteralOrder.arrange_perm ..).nodup_iff.mpr (nodup_eraseDups _)
    exact (Clause.pairwise_arrange _).and hnodup |>.imp fun h => lt_of_le_of_ne h.1 h.2

theorem cleaned?_arranged (hnonzero : ∀ l ∈ ls, l ≠ 0) :
    (arranged ls : Literals o).cleaned? = (arranged ls : Literals o).reduced? := by
  cases o with
  | byValue => exact clauseReduced?_eq hnonzero
  | asGiven => rfl
  | byIndex => rfl

end Literals

namespace Bindings

variable {pairs others : List (String × Value)}

/-- The faults of the pairs that give a name another value than its first pair does. -/
def clashes (pairs : List (String × Value)) : List Fault :=
  (pairs.filter fun pair => pairs.lookup pair.1 != some pair.2).map fun pair => .nameTaken pair.1

/-- What the pairs accepted so far amount to, and what was reported. -/
structure Builds (pairs : List (String × Value)) (built : Bindings × List Fault) : Prop where
  get?_eq : ∀ name, built.1.get? name = pairs.lookup name
  toList_eq : clashes pairs = [] → built.1.toList = pairs.eraseDups
  faults_eq : built.2 = clashes pairs

theorem lookup_concat (pairs : List (String × Value)) (pair : String × Value) (name : String) :
    (pairs ++ [pair]).lookup name =
      (pairs.lookup name).or (if name = pair.1 then some pair.2 else none) := by
  rw [List.lookup_append, List.lookup_cons, List.lookup_nil]
  split
  · next h => rw [if_pos (by simpa using h)]
  · next h => rw [if_neg (by simpa using h)]

/-- One more pair does not change what the pairs before are compared with. -/
theorem clashes_concat (pairs : List (String × Value)) (pair : String × Value) :
    clashes (pairs ++ [pair]) =
      clashes pairs ++
        if (pairs.lookup pair.1).all (· == pair.2) then [] else [.nameTaken pair.1] := by
  have hbefore : ∀ p ∈ pairs,
      ((pairs ++ [pair]).lookup p.1 != some p.2) = (pairs.lookup p.1 != some p.2) := by
    intro p hp
    have hfound : pairs.lookup p.1 ≠ none := fun hnone => by
      simpa using List.lookup_eq_none_iff.mp hnone p hp
    obtain ⟨first, hfirst⟩ := Option.ne_none_iff_exists'.mp hfound
    rw [lookup_concat, hfirst, Option.some_or]
  have hlast : (pairs ++ [pair]).lookup pair.1 = some ((pairs.lookup pair.1).getD pair.2) := by
    rw [lookup_concat, if_pos rfl]
    cases pairs.lookup pair.1 <;> rfl
  rw [clashes, List.filter_append, List.map_append, List.filter_congr hbefore, ← clashes]
  congr 1
  cases hfirst : pairs.lookup pair.1 with
  | none => simp [hlast, hfirst]
  | some first => by_cases h : first = pair.2 <;> simp [hlast, hfirst, h]

/-- A pair whose name comes for the first time is put behind the others. -/
theorem Builds.addPair_of_new {v : Bindings} {faults : List Fault} {name : String} {value : Value}
    (h : Builds pairs (v, faults)) (hnew : v.get? name = none) :
    Builds (pairs ++ [(name, value)]) (Bindings.addPair (v, faults) (name, value)) := by
  have hnone : pairs.lookup name = none := (h.get?_eq name).symm.trans hnew
  have hsame : clashes (pairs ++ [(name, value)]) = clashes pairs := by
    simp [clashes_concat, hnone]
  have hmem : (name, value) ∉ pairs := fun hmem => by
    simpa using List.lookup_eq_none_iff.mp hnone _ hmem
  rw [Bindings.addPair, hnew]
  refine ⟨fun other => ?_, fun hclean => ?_, h.faults_eq.trans hsame.symm⟩
  · rw [get?_insert, h.get?_eq, lookup_concat]
    split
    · next hequal => rw [hequal, hnone, Option.none_or]
    · rw [Option.or_none]
  · rw [insert_of_new (get?_eq_none_iff.mp hnew), h.toList_eq (hsame ▸ hclean), eraseDups_concat,
      if_neg hmem]

/-- A pair whose name came before changes nothing, but is reported if the value is another one. -/
theorem Builds.addPair_of_old {v : Bindings} {faults : List Fault} {name : String}
    {value old : Value} (h : Builds pairs (v, faults)) (hold : v.get? name = some old) :
    Builds (pairs ++ [(name, value)]) (Bindings.addPair (v, faults) (name, value)) := by
  have hfirst : pairs.lookup name = some old := (h.get?_eq name).symm.trans hold
  have hlookup : ∀ other, v.get? other = (pairs ++ [(name, value)]).lookup other := by
    intro other
    rw [h.get?_eq, lookup_concat]
    split
    · next hequal => rw [hequal, hfirst, Option.some_or]
    · rw [Option.or_none]
  rw [Bindings.addPair, hold]
  by_cases hequal : old = value
  · subst hequal
    have hsame : clashes (pairs ++ [(name, old)]) = clashes pairs := by
      simp [clashes_concat, hfirst]
    have hmem : (name, old) ∈ pairs := by
      obtain ⟨before, after, hsplit, -⟩ := List.lookup_eq_some_iff.mp hfirst
      simp [hsplit]
    simp only [BEq.rfl, if_true]
    refine ⟨hlookup, fun hclean => ?_, h.faults_eq.trans hsame.symm⟩
    rw [h.toList_eq (hsame ▸ hclean), eraseDups_concat, if_pos hmem]
  · have hclash : clashes (pairs ++ [(name, value)]) = clashes pairs ++ [.nameTaken name] := by
      simp [clashes_concat, hfirst, hequal]
    have hdiffer : (old == value) = false := by simpa using hequal
    have hfaults : faults = clashes pairs := h.faults_eq
    simp only [hdiffer, Bool.false_eq_true, if_false]
    refine ⟨hlookup, fun hclean => ?_, by rw [hclash, hfaults]⟩
    simp [hclash] at hclean

theorem Builds.addPair {built : Bindings × List Fault} (h : Builds pairs built)
    (pair : String × Value) : Builds (pairs ++ [pair]) (addPair built pair) := by
  cases hold : built.1.get? pair.1 with
  | none => exact h.addPair_of_new hold
  | some old => exact h.addPair_of_old hold

/-- Each pair is kept at its first place, barring the names with two values. -/
theorem ofPairs_eq (pairs : List (String × Value)) :
    ofPairs pairs = Faults.barring (clashes pairs) ⟨pairs.eraseDups⟩ := by
  have hbuilt : Builds pairs (pairs.foldl Bindings.addPair (empty, [])) := by
    induction pairs using List.reverseRecOn with
    | nil => exact ⟨fun name => rfl, fun _ => rfl, rfl⟩
    | append_singleton pairs pair ih =>
        rw [List.foldl_append]
        exact ih.addPair pair
  rw [ofPairs]
  generalize pairs.foldl Bindings.addPair (empty, []) = built at hbuilt
  obtain ⟨v, faults⟩ := built
  obtain ⟨-, hlist, rfl⟩ := hbuilt
  exact Faults.barring_congr fun hnone => congrArg Bindings.mk (hlist hnone)

/-- No pairs clash if each name has one value. -/
theorem clashes_eq_nil_iff :
    clashes pairs = [] ↔ ∀ p ∈ pairs, ∀ q ∈ pairs, p.1 = q.1 → p = q := by
  have hfirst : clashes pairs = [] ↔ ∀ p ∈ pairs, pairs.lookup p.1 = some p.2 := by
    simp [clashes, List.filter_eq_nil_iff]
  rw [hfirst]
  constructor
  · intro h p hp q hq hname
    have hvalue := h q hq
    rw [← hname, h p hp, Option.some.injEq] at hvalue
    exact Prod.ext hname hvalue
  · intro h p hp
    cases hlookup : pairs.lookup p.1 with
    | none => simpa using List.lookup_eq_none_iff.mp hlookup p hp
    | some value =>
        obtain ⟨before, after, hsplit, -⟩ := List.lookup_eq_some_iff.mp hlookup
        have hmem : (p.1, value) ∈ pairs := by simp [hsplit]
        rw [h p hp _ hmem rfl]

/-- The order of some pairs does not matter to what they bind. -/
theorem alike_ofPairs (h : pairs.Perm others) :
    Faults.Alike (fun v w => (w == v) = true) (ofPairs pairs) (ofPairs others) := by
  have hclashes : clashes pairs = [] ↔ clashes others = [] := by
    simp only [clashes_eq_nil_iff, h.mem_iff]
  rw [ofPairs_eq, ofPairs_eq]
  by_cases hnone : clashes pairs = []
  · rw [hnone, hclashes.mp hnone]
    have hperm : others.eraseDups.Perm pairs.eraseDups :=
      eraseDups_perm_of_mem_iff fun p => h.symm.mem_iff
    refine beq_of_perm (List.Nodup.map_on (fun p hp q hq => ?_) (nodup_eraseDups _)) hperm
    exact clashes_eq_nil_iff.mp hnone p (List.mem_eraseDups.mp hp) q (List.mem_eraseDups.mp hq)
  · obtain ⟨fs, hpairs, -⟩ := Faults.exists_barring_eq_error hnone (Bindings.mk pairs.eraseDups)
    obtain ⟨gs, hothers, -⟩ := Faults.exists_barring_eq_error (mt hclashes.mpr hnone)
      (Bindings.mk others.eraseDups)
    rw [hpairs, hothers]
    trivial

end Bindings

end ClauseForm
