import ClauseForm.Literals.Reduced
import ClauseForm.NormalForm
import ClauseForm.Proofs.Lookups
import ClauseForm.Proofs.Meaning

/-!
The truth value of a list of clauses.

Once it is known which literals are true, a list of clauses has a truth value in each of the two
normal forms.  `reads_product` says that merging the clauses of two lists pairwise multiplies these
values, although repetitions and contradictory clauses are left out.
-/

namespace ClauseForm

/-- Decides whether a literal is true under truth values of indices. -/
def trueUnder (β : Nat → Bool) (l : Int) : Bool := β l.natAbs == decide (0 < l)

theorem trueUnder_neg (β : Nat → Bool) {l : Int} (hl : l ≠ 0) :
    trueUnder β (-l) = !trueUnder β l := by
  have hsign : decide (0 < -l) = !decide (0 < l) := by
    rw [← decide_not, decide_eq_decide]
    omega
  rw [trueUnder, trueUnder, Int.natAbs_neg, hsign]
  cases β l.natAbs <;> cases decide (0 < l) <;> rfl

namespace NormalForm

/-- The truth value of a list of clauses under the truth values `τ` of literals: in a conjunction
every clause has a true literal, in a disjunction some clause has only true literals. -/
def reads (form : NormalForm) (τ : Int → Bool) (clauses : List Clause) : Bool :=
  match form with
  | cnf => clauses.all fun c => c.toList.any τ
  | dnf => clauses.any fun c => c.toList.all τ

variable {form : NormalForm} {τ ρ : Int → Bool} {clauses : List Clause}

theorem reads_congr (h : ∀ c ∈ clauses, ∀ l ∈ c.toList, τ l = ρ l) :
    form.reads τ clauses = form.reads ρ clauses := by
  cases form with
  | cnf => exact all_congr_of_mem fun c hc => any_congr_of_mem (h c hc)
  | dnf => exact any_congr_of_mem fun c hc => all_congr_of_mem (h c hc)

/-- Read as a disjunction, a list is false exactly when it is true as a conjunction of the negated
literals. -/
theorem reads_dnf_eq (τ : Int → Bool) (clauses : List Clause) :
    reads dnf τ clauses = !reads cnf (fun l => !τ l) clauses := by
  simp [reads, List.not_all_eq_any_not, List.not_any_eq_all_not]

/-- A list with an empty clause is false as a conjunction and true as a disjunction. -/
theorem reads_of_empty_mem {c : Clause} (hc : c ∈ clauses) (hempty : c.toList = []) :
    form.reads τ clauses = match form with | cnf => false | dnf => true := by
  cases form with
  | cnf => exact List.all_eq_false.mpr ⟨c, hc, by simp [hempty]⟩
  | dnf => exact List.any_eq_true.mpr ⟨c, hc, by simp [hempty]⟩

theorem reads_eraseDups (clauses : List Clause) :
    form.reads τ clauses.eraseDups = form.reads τ clauses := by
  cases form <;> rw [Bool.eq_iff_iff] <;> simp [reads, List.mem_eraseDups]

theorem reads_flatten (lists : List (List Clause)) :
    form.reads τ lists.flatten =
      match form with
      | cnf => lists.all (form.reads τ)
      | dnf => lists.any (form.reads τ) := by
  cases form with
  | cnf => exact List.all_flatten
  | dnf => exact List.any_flatten

end NormalForm

namespace Clause

theorem mem_dropRepeats {ls : List Int} {l : Int} : l ∈ dropRepeats ls ↔ l ∈ ls := by
  fun_induction dropRepeats ls with
  | case1 => rfl
  | case2 => rfl
  | case3 k j ls hequal ih =>
      obtain rfl : k = j := by simpa using hequal
      simp [ih]
  | case4 k j ls hdiffer ih => simp [ih]

theorem mem_of_reduced?_eq_some {c d : Clause} (h : c.reduced? = some d) {l : Int} :
    l ∈ d.toList ↔ l ∈ c.toList := by
  simp only [reduced?] at h
  split at h
  · contradiction
  · obtain rfl := Option.some.inj h
    exact mem_dropRepeats

/-- A clause is refused only if some index occurs in it in both signs. -/
theorem exists_of_reduced?_eq_none {c : Clause} (h : c.reduced? = none) :
    ∃ l ∈ c.toList, 0 < l ∧ -l ∈ c.toList := by
  simp only [reduced?] at h
  split at h
  · rename_i hcontradictory
    obtain ⟨l, hl, hopposite⟩ := List.any_eq_true.mp hcontradictory
    obtain ⟨hl, hpositive⟩ := List.mem_filter.mp hl
    exact ⟨l, mem_dropRepeats.mp hl, of_decide_eq_true hpositive,
      mem_dropRepeats.mp (Literals.mem_of_contains hopposite)⟩
  · contradiction

/-- Two clauses merged into one, unless an index occurs in both signs. -/
def merged? (left right : Clause) : Option Clause :=
  reduced? (.arranged (left.toList ++ right.toList))

/-- The clauses that merge a clause of one list with a clause of another, each once. -/
def product (lefts rights : List Clause) : List Clause :=
  (lefts.flatMap fun left => rights.filterMap (merged? left)).eraseDups

theorem mem_of_merged?_eq_some {left right c : Clause} (h : merged? left right = some c)
    {l : Int} : l ∈ c.toList ↔ l ∈ left.toList ∨ l ∈ right.toList := by
  rw [mem_of_reduced?_eq_some h, Literals.mem_toList_arranged, List.mem_append]

theorem mem_product {lefts rights : List Clause} {c : Clause} :
    c ∈ product lefts rights ↔
      ∃ left ∈ lefts, ∃ right ∈ rights, merged? left right = some c := by
  simp [product, List.mem_eraseDups]

/-- The literals of a product are those of its factors. -/
theorem forall_literals_product {lefts rights : List Clause} {p : Int → Prop}
    (hlefts : ∀ c ∈ lefts, ∀ l ∈ c.toList, p l) (hrights : ∀ c ∈ rights, ∀ l ∈ c.toList, p l) :
    ∀ c ∈ product lefts rights, ∀ l ∈ c.toList, p l := by
  intro c hc l hl
  obtain ⟨left, hleft, right, hright, hmerged⟩ := mem_product.mp hc
  rcases (mem_of_merged?_eq_some hmerged).mp hl with hl | hl
  · exact hlefts left hleft l hl
  · exact hrights right hright l hl

variable {τ : Int → Bool}

/-- A clause that is left out because it is contradictory would have had a true literal. -/
theorem any_reduced? {ls : List Int} (hls : ∀ l ∈ ls, 0 < l → τ (-l) = !τ l) :
    (reduced? (.arranged ls)).all (fun c => c.toList.any τ) = ls.any τ := by
  cases h : reduced? (.arranged ls) with
  | some c =>
      rw [Bool.eq_iff_iff]
      simp [mem_of_reduced?_eq_some h, LiteralOrder.arrange]
  | none =>
      obtain ⟨l, hl, hpositive, hopposite⟩ := exists_of_reduced?_eq_none h
      rw [Literals.mem_toList_arranged] at hl hopposite
      rw [Option.all_none, eq_comm, List.any_eq_true]
      cases htrue : τ l with
      | true => exact ⟨l, hl, htrue⟩
      | false => exact ⟨-l, hopposite, by rw [hls l hl hpositive, htrue]; rfl⟩

theorem any_merged? {left right : Clause}
    (hleft : ∀ l ∈ left.toList, τ (-l) = !τ l) (hright : ∀ l ∈ right.toList, τ (-l) = !τ l) :
    (merged? left right).all (fun c => c.toList.any τ) =
      (left.toList.any τ || right.toList.any τ) := by
  rw [merged?, ← List.any_append]
  apply any_reduced?
  intro l hl _
  rcases List.mem_append.mp hl with hl | hl
  · exact hleft l hl
  · exact hright l hl

theorem all_or_const {α : Type} (as : List α) (p : α → Bool) (b : Bool) :
    as.all (fun a => p a || b) = (as.all p || b) := by
  cases b <;> simp

theorem all_const_or {α : Type} (as : List α) (p : α → Bool) (b : Bool) :
    as.all (fun a => b || p a) = (b || as.all p) := by
  cases b <;> simp

theorem reads_cnf_product {lefts rights : List Clause}
    (hlefts : ∀ c ∈ lefts, ∀ l ∈ c.toList, τ (-l) = !τ l)
    (hrights : ∀ c ∈ rights, ∀ l ∈ c.toList, τ (-l) = !τ l) :
    NormalForm.cnf.reads τ (product lefts rights) =
      (NormalForm.cnf.reads τ lefts || NormalForm.cnf.reads τ rights) := by
  have merged : ∀ left ∈ lefts, (rights.filterMap (merged? left)).all (fun c => c.toList.any τ) =
      (left.toList.any τ || NormalForm.cnf.reads τ rights) := by
    intro left hleft
    rw [NormalForm.reads, ← all_const_or, List.all_filterMap]
    apply all_congr_of_mem
    intro right hright
    rw [← any_merged? (hlefts left hleft) (hrights right hright)]
    cases merged? left right <;> rfl
  rw [product, NormalForm.reads_eraseDups, NormalForm.reads, List.all_flatMap,
    all_congr_of_mem merged, all_or_const]
  rfl

/-- A product of two lists is true if one of them is, read as conjunctions, and if both are, read as
disjunctions. -/
theorem reads_product (form : NormalForm) {lefts rights : List Clause}
    (hlefts : ∀ c ∈ lefts, ∀ l ∈ c.toList, τ (-l) = !τ l)
    (hrights : ∀ c ∈ rights, ∀ l ∈ c.toList, τ (-l) = !τ l) :
    form.reads τ (product lefts rights) =
      match form with
      | .cnf => form.reads τ lefts || form.reads τ rights
      | .dnf => form.reads τ lefts && form.reads τ rights := by
  cases form with
  | cnf => exact reads_cnf_product hlefts hrights
  | dnf =>
      simp only [NormalForm.reads_dnf_eq]
      rw [reads_cnf_product (fun c hc l hl => by rw [hlefts c hc l hl])
        (fun c hc l hl => by rw [hrights c hc l hl]), Bool.not_or]

/-- The product of any number of lists, from the left. -/
def products : List (List Clause) → List Clause
  | [] => [Literals.empty]
  | factor :: factors => factors.foldl product factor

theorem forall_literals_products {factors : List (List Clause)} {p : Int → Prop}
    (hfactors : ∀ factor ∈ factors, ∀ c ∈ factor, ∀ l ∈ c.toList, p l) :
    ∀ c ∈ products factors, ∀ l ∈ c.toList, p l := by
  cases factors with
  | nil => simp [products, Literals.empty, Literals.toList]
  | cons factor factors =>
      rw [products]
      induction factors generalizing factor with
      | nil => exact hfactors factor List.mem_cons_self
      | cons next factors ih =>
          apply ih
          intro part hpart
          rcases List.mem_cons.mp hpart with rfl | hpart
          · exact forall_literals_product (hfactors factor (by simp)) (hfactors next (by simp))
          · exact hfactors part (by simp [hpart])

theorem reads_products {form : NormalForm} {factors : List (List Clause)}
    (hfactors : ∀ factor ∈ factors, ∀ c ∈ factor, ∀ l ∈ c.toList, τ (-l) = !τ l) :
    form.reads τ (products factors) =
      match form with
      | .cnf => factors.any (form.reads τ)
      | .dnf => factors.all (form.reads τ) := by
  cases factors with
  | nil => cases form <;> rfl
  | cons factor factors =>
      rw [products]
      induction factors generalizing factor with
      | nil => cases form <;> simp
      | cons next factors ih =>
          have hproduct := forall_literals_product (hfactors factor (by simp))
            (hfactors next (by simp))
          rw [List.foldl_cons, ih (product factor next) ?_]
          · have joined := reads_product form (hfactors factor (by simp))
              (hfactors next (by simp))
            cases form <;> simp only [List.any_cons, List.all_cons, joined, Bool.or_assoc,
              Bool.and_assoc]
          · intro part hpart
            rcases List.mem_cons.mp hpart with rfl | hpart
            · exact hproduct
            · exact hfactors part (by simp [hpart])

end Clause

end ClauseForm
