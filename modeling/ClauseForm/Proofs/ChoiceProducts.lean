import ClauseForm.Proofs.DualTruth
import ClauseForm.Proofs.FirstOccurrences
import ClauseForm.Proofs.ReducedClauses
import Mathlib.Data.List.Induction

/-!
Choices of literals and products of clauses.

The dual of a list goes through all choices and drops the contradictory and repeated ones at the
end; a product drops them after every factor.  `eraseDups_products_units` says that both keep the
same clauses in the same order.  `eraseDups_chosen_map` says that this order does not depend on how
the literals are numbered.
-/

namespace ClauseForm

namespace Clauses

open Clause

variable {lists : List (List Int)} {ls ks : List Int} {l : Int}

/-- Each of some literals as a clause. -/
def units (ls : List Int) : List Clause := ls.map fun l => .arranged [l]

theorem forall_literals_units {p : Int → Prop} (hlists : ∀ ls ∈ lists, ∀ l ∈ ls, p l) :
    ∀ factor ∈ lists.map units, ∀ c ∈ factor, ∀ l ∈ c.toList, p l := by
  intro factor hfactor c hc l hl
  obtain ⟨ls, hls, rfl⟩ := List.mem_map.mp hfactor
  obtain ⟨k, hk, rfl⟩ := List.mem_map.mp hc
  obtain rfl := List.mem_singleton.mp (Literals.mem_toList_arranged.mp hl)
  exact hlists ls hls l hk

theorem choices_append_singleton (lists : List (List Int)) (ls : List Int) :
    choices (lists ++ [ls]) = (choices lists).flatMap fun ks => ls.map fun l => ks ++ [l] := by
  induction lists with
  | nil => simp [choices, List.map_eq_flatMap]
  | cons first lists ih =>
      rw [List.cons_append, choices, ih, choices, List.flatMap_assoc]
      simp [List.map_flatMap, List.flatMap_map, Function.comp_def]

theorem chosen?_nil : chosen? [] = some Literals.empty :=
  reduced?_eq_some_iff.mpr ⟨by simp [Opposed], .nil, fun _ => Iff.rfl⟩

theorem chosen?_singleton (l : Int) : chosen? [l] = some (.arranged [l]) := by
  refine reduced?_eq_some_iff.mpr ⟨?_, ?_, fun k => Literals.mem_toList_arranged⟩
  · rintro ⟨k, hk, hpositive, hopposite⟩
    rw [List.mem_singleton] at hk hopposite
    omega
  · simp [Increasing, LiteralOrder.arrange]

theorem filterMap_chosen?_singleton (ls : List Int) :
    (choices [ls]).filterMap chosen? = units ls := by
  have hchosen : chosen? ∘ (fun l => [l]) = some ∘ fun l => .arranged [l] :=
    funext chosen?_singleton
  have hchoices : choices [ls] = ls.map fun l => [l] := List.map_eq_flatMap.symm
  rw [hchoices, List.filterMap_map, hchosen, List.filterMap_eq_map]
  rfl

/-- A choice with one more literal is reduced like the merge of the reduced choice with the
literal. -/
theorem chosen?_append (ks : List Int) (l : Int) :
    chosen? (ks ++ [l]) = (chosen? ks).bind fun left => merged? left (.arranged [l]) := by
  cases hks : chosen? ks with
  | none =>
      have hopposed := reduced?_eq_none_iff.mp hks
      exact reduced?_eq_none_iff.mpr (hopposed.mono (List.subset_append_left ks [l]))
  | some left =>
      obtain ⟨-, -, hmem⟩ := reduced?_eq_some_iff.mp hks
      apply reduced?_congr
      intro k
      rw [List.mem_append, List.mem_append, hmem, Literals.mem_toList_arranged]

theorem filterMap_chosen?_append (lists : List (List Int)) (ls : List Int) :
    (choices (lists ++ [ls])).filterMap chosen? =
      ((choices lists).filterMap chosen?).flatMap fun left =>
        (units ls).filterMap (merged? left) := by
  have hchoice : ∀ ks, (ls.map fun l => ks ++ [l]).filterMap chosen? =
      (chosen? ks).toList.flatMap fun left => (units ls).filterMap (merged? left) := by
    intro ks
    rw [List.filterMap_map]
    simp only [Function.comp_def, chosen?_append, units, List.filterMap_map]
    cases chosen? ks <;> simp
  rw [choices_append_singleton, List.filterMap_flatMap]
  simp only [hchoice]
  rw [← List.flatMap_assoc, ← List.filterMap_eq_flatMap_toList]

theorem products_append_singleton (first : List Clause) (rest : List (List Clause))
    (last : List Clause) :
    products (first :: (rest ++ [last])) = product (products (first :: rest)) last := by
  simp [products, List.foldl_append]

/-- Whether contradictions and repetitions are dropped after every factor or once at the end, the
clauses of all choices are the same and in the same order. -/
theorem eraseDups_products_units (lists : List (List Int)) :
    (products (lists.map units)).eraseDups = ((choices lists).filterMap chosen?).eraseDups := by
  cases lists with
  | nil =>
      rw [choices, List.filterMap_cons_some chosen?_nil, List.filterMap_nil, List.map_nil, products]
  | cons first rest =>
      induction rest using List.reverseRecOn with
      | nil => exact congrArg List.eraseDups (filterMap_chosen?_singleton first).symm
      | append_singleton rest ls ih =>
          -- The last factor is the outermost one.  Repetitions among the clauses before it only
          -- lead to repetitions after it, so the induction hypothesis can be used below it.
          rw [List.map_cons, List.map_append, List.map_singleton, products_append_singleton,
            product, eraseDups_eraseDups, ← eraseDups_flatMap_of_eraseDups, ← List.map_cons, ih,
            eraseDups_flatMap_of_eraseDups, ← List.cons_append, filterMap_chosen?_append]

theorem length_of_mem_choices (hks : ks ∈ choices lists) : ks.length = lists.length := by
  induction lists generalizing ks with
  | nil => simp_all [choices]
  | cons ls lists ih =>
      rw [choices, List.mem_flatMap] at hks
      obtain ⟨k, -, hks⟩ := hks
      obtain ⟨rest, hrest, rfl⟩ := List.mem_map.mp hks
      rw [List.length_cons, List.length_cons, ih hrest]

/-- A product of single literals has an empty clause only if it has no factors. -/
theorem products_units_of_isEmpty
    (h : (products (lists.map units)).any Literals.isEmpty = true) :
    products (lists.map units) = [Literals.empty] := by
  obtain ⟨c, hc, hempty⟩ := List.any_eq_true.mp h
  rw [← List.mem_eraseDups, eraseDups_products_units, List.mem_eraseDups] at hc
  obtain ⟨ks, hks, hchosen⟩ := List.mem_filterMap.mp hc
  obtain ⟨-, -, hmem⟩ := reduced?_eq_some_iff.mp hchosen
  have hnil : c.toList = [] := by simpa [Literals.isEmpty, Literals.toList] using hempty
  obtain rfl : ks = [] := List.eq_nil_iff_forall_not_mem.mpr fun k hk => by
    simpa [hnil] using (hmem k).mpr hk
  obtain rfl := List.eq_nil_of_length_eq_zero (length_of_mem_choices hks).symm
  rfl

/-- Literals of a certain kind are given other numbers, so that their signs and differences stay. -/
structure Renumbers (D : Int → Prop) (φ : Int → Int) : Prop where
  nonzero : ∀ x, D x → x ≠ 0
  neg_mem : ∀ x, D x → D (-x)
  map_neg : ∀ x, D x → φ (-x) = -φ x
  injective : ∀ x y, D x → D y → φ x = φ y → x = y

/-- The clause with other numbers. -/
def renumbered (φ : Int → Int) (c : Clause) : Clause := .arranged (c.toList.map φ)

section Renumbering

variable {D : Int → Prop} {φ : Int → Int}

theorem opposed_map (hφ : Renumbers D φ) (hls : ∀ l ∈ ls, D l) :
    Opposed (ls.map φ) ↔ Opposed ls := by
  rw [opposed_iff, opposed_iff]
  constructor
  · rintro ⟨_, hk, -, hy⟩
    obtain ⟨x, hx, rfl⟩ := List.mem_map.mp hk
    obtain ⟨y, hy, hequal⟩ := List.mem_map.mp hy
    have hdx := hls x hx
    rw [← hφ.map_neg x hdx] at hequal
    obtain rfl := hφ.injective y (-x) (hls y hy) (hφ.neg_mem x hdx) hequal
    exact ⟨x, hx, hφ.nonzero x hdx, hy⟩
  · rintro ⟨x, hx, hnonzero, hopposite⟩
    have hdx := hls x hx
    refine ⟨φ x, List.mem_map_of_mem hx, fun hzero => hnonzero ?_, ?_⟩
    · have hsame : φ (-x) = φ x := by rw [hφ.map_neg x hdx, hzero, Int.neg_zero]
      have := hφ.injective (-x) x (hφ.neg_mem x hdx) hdx hsame
      omega
    · rw [← hφ.map_neg x hdx]
      exact List.mem_map_of_mem hopposite

theorem mem_renumbered {c : Clause} : l ∈ (renumbered φ c).toList ↔ ∃ x ∈ c.toList, φ x = l :=
  Literals.mem_toList_arranged.trans List.mem_map

theorem increasing_renumbered (hφ : Renumbers D φ) {c : Clause} (hc : c.Increasing)
    (hD : ∀ l ∈ c.toList, D l) : (renumbered φ c).Increasing := by
  have hnodup : (c.toList.map φ).Nodup :=
    List.Nodup.map_on (fun x hx y hy => hφ.injective x y (hD x hx) (hD y hy))
      (hc.imp Int.ne_of_lt)
  have hsorted := pairwise_arrange (c.toList.map φ)
  have hdistinct := (LiteralOrder.arrange_perm .byValue (c.toList.map φ)).nodup_iff.mpr hnodup
  exact (hsorted.and hdistinct).imp fun ⟨hle, hne⟩ => by omega

/-- A choice is reduced alike with all numbers. -/
theorem chosen?_map (hφ : Renumbers D φ) (hls : ∀ l ∈ ls, D l) :
    chosen? (ls.map φ) = (chosen? ls).map (renumbered φ) := by
  cases hchosen : chosen? ls with
  | none =>
      have hopposed := reduced?_eq_none_iff.mp hchosen
      exact reduced?_eq_none_iff.mpr ((opposed_map hφ hls).mpr hopposed)
  | some c =>
      obtain ⟨hkept, hincreasing, hmem⟩ := reduced?_eq_some_iff.mp hchosen
      refine reduced?_eq_some_iff.mpr ⟨mt (opposed_map hφ hls).mp hkept,
        increasing_renumbered hφ hincreasing fun l hl => hls l ((hmem l).mp hl), fun l => ?_⟩
      rw [mem_renumbered, List.mem_map]
      simp only [hmem]

theorem choices_map (φ : Int → Int) (lists : List (List Int)) :
    choices (lists.map (List.map φ)) = (choices lists).map (List.map φ) := by
  induction lists with
  | nil => rfl
  | cons ls lists ih =>
      rw [List.map_cons, choices, choices, ih, List.map_flatMap, List.flatMap_map]
      simp [Function.comp_def]

theorem forall_literals_choices {p : Int → Prop} (hlists : ∀ ls ∈ lists, ∀ l ∈ ls, p l) :
    ∀ ks ∈ choices lists, ∀ l ∈ ks, p l := by
  induction lists with
  | nil => simp [choices]
  | cons ls lists ih =>
      obtain ⟨hls, hlists⟩ := List.forall_mem_cons.mp hlists
      intro ks hks
      rw [choices, List.mem_flatMap] at hks
      obtain ⟨k, hk, hks⟩ := hks
      obtain ⟨rest, hrest, rfl⟩ := List.mem_map.mp hks
      exact List.forall_mem_cons.mpr ⟨hls k hk, ih hlists rest hrest⟩

theorem mem_of_renumbered_eq (hφ : Renumbers D φ) {c d : Clause} (hc : ∀ l ∈ c.toList, D l)
    (hd : ∀ l ∈ d.toList, D l) (h : renumbered φ c = renumbered φ d) (hl : l ∈ c.toList) :
    l ∈ d.toList := by
  have hmem : φ l ∈ (renumbered φ d).toList := h ▸ mem_renumbered.mpr ⟨l, hl, rfl⟩
  obtain ⟨x, hx, hequal⟩ := mem_renumbered.mp hmem
  exact hφ.injective x l (hd x hx) (hc l hl) hequal ▸ hx

/-- The clauses of all choices stay the same, at their places, when the literals are given other
numbers. -/
theorem eraseDups_chosen_map (hφ : Renumbers D φ) (hlists : ∀ ls ∈ lists, ∀ l ∈ ls, D l) :
    ((choices (lists.map (List.map φ))).filterMap chosen?).eraseDups =
      ((choices lists).filterMap chosen?).eraseDups.map (renumbered φ) := by
  have hD := forall_literals_choices hlists
  have hmap : (choices (lists.map (List.map φ))).filterMap chosen? =
      ((choices lists).filterMap chosen?).map (renumbered φ) := by
    rw [choices_map, List.filterMap_map, List.map_filterMap]
    exact List.filterMap_congr fun ks hks => chosen?_map hφ (hD ks hks)
  have hclause : ∀ c ∈ (choices lists).filterMap chosen?,
      c.Increasing ∧ ∀ l ∈ c.toList, D l := by
    intro c hc
    obtain ⟨ks, hks, hchosen⟩ := List.mem_filterMap.mp hc
    obtain ⟨-, hincreasing, hmem⟩ := reduced?_eq_some_iff.mp hchosen
    exact ⟨hincreasing, fun l hl => hD ks hks l ((hmem l).mp hl)⟩
  rw [hmap]
  apply eraseDups_map_of_injective
  intro c hc d hd hequal
  obtain ⟨hcIncreasing, hcD⟩ := hclause c hc
  obtain ⟨hdIncreasing, hdD⟩ := hclause d hd
  exact hcIncreasing.eq_of_mem_iff hdIncreasing fun l =>
    ⟨mem_of_renumbered_eq hφ hcD hdD hequal, mem_of_renumbered_eq hφ hdD hcD hequal.symm⟩

end Renumbering

end Clauses

end ClauseForm
