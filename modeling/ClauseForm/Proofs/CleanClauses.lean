import ClauseForm.Proofs.ChoiceProducts
import ClauseForm.Proofs.Expansion
import ClauseForm.Proofs.ReducedClauses

/-!
Clean clauses: each literal once, and no index in both signs.

Every clause that an expansion or a choice ends with is clean, also where nothing was merged.  The
literals of a clean clause can be true together, and false together.
-/

namespace ClauseForm

namespace Clause

/-- The literals increase, and no index occurs in both signs. -/
structure Clean (c : Clause) : Prop where
  increasing : c.Increasing
  unopposed : ¬ Opposed c.toList

variable {c : Clause} {ls : List Int} {l : Int} {lefts rights : List Clause}

theorem clean_of_reduced? (h : reduced? (.arranged ls) = some c) : c.Clean := by
  obtain ⟨hunopposed, hincreasing, hmem⟩ := reduced?_eq_some_iff.mp h
  exact ⟨hincreasing, fun hopposed => hunopposed (hopposed.mono fun l hl => (hmem l).mp hl)⟩

theorem clean_empty : Clean Literals.empty where
  increasing := .nil
  unopposed := by simp [Opposed, Literals.empty, Literals.toList]

theorem clean_singleton (l : Int) : Clean (.arranged [l]) := by
  have hlist : (Literals.arranged [l] : Clause).toList = [l] :=
    List.perm_singleton.mp (LiteralOrder.arrange_perm .byValue [l])
  constructor
  · rw [Increasing, hlist]
    exact List.pairwise_singleton ..
  · rw [hlist]
    rintro ⟨k, hk, hpositive, hopposite⟩
    rw [List.mem_singleton] at hk hopposite
    omega

theorem clean_of_mem_product (hc : c ∈ product lefts rights) : c.Clean := by
  obtain ⟨left, -, right, -, hmerged⟩ := mem_product.mp hc
  exact clean_of_reduced? hmerged

/-- A product of a single list is that list; all others consist of merged clauses. -/
theorem clean_of_mem_products {factors : List (List Clause)}
    (hfactors : ∀ factor ∈ factors, ∀ c ∈ factor, c.Clean) :
    ∀ c ∈ products factors, c.Clean := by
  cases factors with
  | nil => exact List.forall_mem_singleton.mpr clean_empty
  | cons factor factors =>
      rw [products]
      induction factors generalizing factor with
      | nil => exact hfactors factor List.mem_cons_self
      | cons next factors ih =>
          refine ih (product factor next) (List.forall_mem_cons.mpr ⟨?_, ?_⟩)
          · exact fun c hc => clean_of_mem_product hc
          · exact fun part hpart => hfactors part (by simp [hpart])

/-- The literals of a clean clause can be true together. -/
theorem Clean.exists_trueUnder (hc : c.Clean) (hnonzero : ∀ l ∈ c.toList, l ≠ 0) :
    ∃ β, ∀ l ∈ c.toList, trueUnder β l = true := by
  refine ⟨fun index => decide ((index : Int) ∈ c.toList), fun l hl => ?_⟩
  rw [trueUnder, beq_iff_eq, decide_eq_decide]
  rcases Int.lt_or_gt_of_ne (hnonzero l hl) with hnegative | hpositive
  · have hopposite : (l.natAbs : Int) = -l := by omega
    rw [hopposite]
    refine iff_of_false (fun hmem => hc.unopposed ?_) (by omega)
    exact opposed_iff.mpr ⟨l, hl, hnonzero l hl, hmem⟩
  · have hsame : (l.natAbs : Int) = l := by omega
    rw [hsame]
    exact iff_of_true hl hpositive

/-- The literals of a clean clause over names can be true together, and false together. -/
theorem Clean.exists_interpretation (hc : c.Clean) {u : Atoms} (hu : u.Valid)
    (hknows : ∀ l ∈ c.toList, u.Knows l)
    (hnames : ∀ l ∈ c.toList, ∃ name positive, u.atomOf l = .literal name positive) (b : Bool) :
    ∃ ι, ∀ l ∈ c.toList, u.truth ι l = b := by
  classical
  let affirmed : String → Prop := fun name => ∃ k ∈ c.toList, u.atomOf k = .literal name true
  refine ⟨⟨fun name => decide (affirmed name) == b, fun _ => 0⟩, fun l hl => ?_⟩
  obtain ⟨name, positive, hatom⟩ := hnames l hl
  have hsign : decide (affirmed name) = positive := by
    cases positive with
    | true => exact decide_eq_true ⟨l, hl, hatom⟩
    | false =>
        refine decide_eq_false ?_
        rintro ⟨k, hk, hkatom⟩
        have hopposite : u.atomOf k = u.atomOf (-l) := by
          rw [hkatom, hu.atomOf_neg (hknows l hl), hatom]
          rfl
        obtain rfl := hu.atomOf_injective (hknows k hk) (hknows l hl).neg hopposite
        exact hc.unopposed (opposed_iff.mpr ⟨l, hl, (hknows l hl).1, hk⟩)
  rw [Atoms.truth, hatom]
  change ((decide (affirmed name) == b) == positive) = b
  rw [hsign]
  cases positive <;> cases b <;> rfl

end Clause

namespace Clauses

theorem clean_of_mem_toDual {l : Clauses} : ∀ c ∈ l.toDual.toList, c.Clean := by
  intro c hc
  rw [toDual_eq, List.mem_eraseDups, List.mem_filterMap] at hc
  obtain ⟨ls, -, hchosen⟩ := hc
  exact Clause.clean_of_reduced? hchosen

/-- The literals of the dual are those of the list. -/
theorem forall_literals_toDual {l : Clauses} {p : Int → Prop}
    (h : ∀ c ∈ l.toList, ∀ x ∈ c.toList, p x) : ∀ c ∈ l.toDual.toList, ∀ x ∈ c.toList, p x := by
  intro c hc x hx
  rw [toDual_eq, List.mem_eraseDups, List.mem_filterMap] at hc
  obtain ⟨ls, hls, hchosen⟩ := hc
  rw [Clause.mem_of_reduced?_eq_some hchosen, Literals.mem_toList_arranged] at hx
  exact forall_literals_choices (List.forall_mem_map.mpr h) ls hls x hx

end Clauses

namespace Expression

variable {form : NormalForm} {e : Expression} {t : Atoms}

theorem clean_of_mem_expandAll {es : List Expression}
    (hes : ∀ e ∈ es, ∀ t, ∀ c ∈ (expand form e t).1, c.Clean) (t : Atoms) :
    ∀ clauses ∈ (expandAll form es t).1, ∀ c ∈ clauses, c.Clean := by
  induction es generalizing t with
  | nil => simp [expandAll_nil]
  | cons e es ih =>
      rw [expandAll_cons]
      exact List.forall_mem_cons.mpr ⟨hes e List.mem_cons_self t,
        ih (fun f hf => hes f (List.mem_cons_of_mem _ hf)) _⟩

/-- Expansion ends with clean clauses, whatever the atoms are. -/
theorem clean_of_mem_expand (he : NnfTree e) (t : Atoms) :
    ∀ c ∈ (expand form e t).1, c.Clean := by
  have hflatten : ∀ parts : List (List Clause), (∀ clauses ∈ parts, ∀ c ∈ clauses, c.Clean) →
      ∀ c ∈ parts.flatten, c.Clean := by
    intro parts hparts c hc
    obtain ⟨clauses, hclauses, hc⟩ := List.mem_flatten.mp hc
    exact hparts clauses hclauses c hc
  induction he generalizing t with
  | verum =>
      rw [expand_verum]
      cases form with
      | cnf => exact List.forall_mem_nil _
      | dnf => exact List.forall_mem_singleton.mpr Clause.clean_empty
  | falsum =>
      rw [expand_falsum]
      cases form with
      | cnf => exact List.forall_mem_singleton.mpr Clause.clean_empty
      | dnf => exact List.forall_mem_nil _
  | atom ha =>
      rw [expand_atom ha]
      exact List.forall_mem_singleton.mpr (Clause.clean_singleton _)
  | and hes ih =>
      have hparts := clean_of_mem_expandAll ih t
      rw [expand_and]
      cases form with
      | cnf => exact hflatten _ hparts
      | dnf => exact Clause.clean_of_mem_products hparts
  | or hes ih =>
      have hparts := clean_of_mem_expandAll ih t
      rw [expand_or]
      cases form with
      | cnf => exact Clause.clean_of_mem_products hparts
      | dnf => exact hflatten _ hparts

end Expression

end ClauseForm
