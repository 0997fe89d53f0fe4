import ClauseForm.NormalForm.Expansion
import ClauseForm.Proofs.ClauseTruth
import ClauseForm.Proofs.Reports

/-!
What products of clause lists report.

A product of two lists reports the multiplication and then each of its clauses once, in order; what
is contradictory or there already is not reported.  A product of more lists does this for one list
after the other.
-/

namespace ClauseForm

theorem foldlM_flatMap {m : Type → Type} [Monad m] [LawfulMonad m] {α β γ : Type}
    (f : γ → β → m γ) (g : α → List β) (as : List α) (c : γ) :
    (as.flatMap g).foldlM f c = as.foldlM (fun c a => (g a).foldlM f c) c := by
  induction as generalizing c with
  | nil => rfl
  | cons a as ih =>
      rw [List.flatMap_cons, List.foldlM_append, List.foldlM_cons]
      exact bind_congr ih

namespace Distinct

variable {α : Type} [BEq α] [Hashable α]

/-- The collection with an item added, unless it is a repetition. -/
def add (d : Distinct α) (a : α) : Distinct α := (d.add? a).getD d

theorem toList_of_add? {d e : Distinct α} {a : α} (h : d.add? a = some e) :
    e.toList = d.toList ++ [a] := by
  unfold add? at h
  split at h
  · contradiction
  · obtain rfl := Option.some.inj h
    simp [toList]

end Distinct

section Keeping

variable {m : Type → Type} [Monad m]

/-- Adds a clause to those found and reports it, unless it is there already. -/
def Observer.keep (o : Observer m) (found : Distinct Clause) (c : Clause) : m (Distinct Clause) :=
  match found.add? c with
  | none => pure found
  | some found => do
    o.clause c.size
    pure found

/-- The report of a clause that is kept. -/
def keepReports (found : Distinct Clause) (c : Clause) : List Report :=
  if (found.add? c).isSome then [.clause c.size] else []

/-- The reports of some new clauses. -/
def clauseReports (clauses : List Clause) : List Report := clauses.map fun c => .clause c.size

theorem scripted_keep [LawfulMonad m] (o : Observer m) (found : Distinct Clause) (c : Clause) :
    o.Scripted (o.keep found c) (keepReports found c) (found.add c) := by
  unfold Observer.keep keepReports Distinct.add
  cases found.add? c with
  | none => exact .pure found
  | some later => exact (Observer.Scripted.tell (.clause c.size)).bind (.pure later)

/-- Each clause that is new is reported when it is kept. -/
theorem foldReports_keep (cs : List Clause) (found : Distinct Clause) :
    ∃ new, (cs.foldl Distinct.add found).toList = found.toList ++ new ∧
      foldReports keepReports Distinct.add cs found = clauseReports new := by
  induction cs generalizing found with
  | nil => exact ⟨[], by simp, rfl⟩
  | cons c cs ih =>
      obtain ⟨new, hlist, hreports⟩ := ih (found.add c)
      rw [List.foldl_cons, foldReports, hreports, hlist, keepReports, Distinct.add]
      cases h : found.add? c with
      | none => exact ⟨new, rfl, rfl⟩
      | some later => exact ⟨c :: new, by simp [Distinct.toList_of_add? h], rfl⟩

theorem toList_foldl_add (cs : List Clause) :
    (cs.foldl Distinct.add Distinct.empty).toList = cs.eraseDups :=
  Distinct.toList_ofList cs

theorem foldReports_keep_empty (cs : List Clause) :
    foldReports keepReports Distinct.add cs Distinct.empty = clauseReports cs.eraseDups := by
  obtain ⟨new, hlist, hreports⟩ := foldReports_keep cs Distinct.empty
  rw [hreports, ← toList_foldl_add, hlist]
  rfl

end Keeping

namespace Clause

/-- The reports of the product of two lists of clauses. -/
def productReports (lefts rights : List Clause) : List Report :=
  .distribution :: clauseReports (product lefts rights)

/-- The reports of the product of any number of lists, from the left. -/
def productsReports : List (List Clause) → List Report
  | [] => []
  | factor :: factors => foldReports productReports product factors factor

/-- Products are not polled. -/
theorem checkpoint_not_mem_productsReports (factors : List (List Clause)) :
    .checkpoint ∉ productsReports factors := by
  cases factors with
  | nil => exact List.not_mem_nil
  | cons factor factors =>
      apply not_mem_foldReports
      intro lefts rights
      simp [productReports, clauseReports]

end Clause

namespace Expression

section Products

variable {m : Type → Type} [Monad m] (o : Observer m)

theorem addProduct_eq (found : Distinct Clause) (left right : Clause) :
    addProduct o found left right =
      match Clause.merged? left right with
      | some c => o.keep found c
      | none => pure found := by
  unfold addProduct Clause.merged?
  cases Clause.reduced? (.arranged (left.toList ++ right.toList)) <;> rfl

variable [LawfulMonad m]

theorem foldlM_addProduct (found : Distinct Clause) (left : Clause) (rights : List Clause) :
    rights.foldlM (fun found right => addProduct o found left right) found =
      (rights.filterMap (Clause.merged? left)).foldlM o.keep found := by
  rw [List.foldlM_filterMap]
  congr 1
  funext found right
  rw [addProduct_eq]
  cases Clause.merged? left right <;> rfl

/-- Multiplying two lists keeps the clauses merged from them, in order. -/
theorem multiply_eq (lefts rights : List Clause) :
    multiply o lefts rights = o.distribution >>= fun _ => Distinct.toList <$>
      (lefts.flatMap fun left => rights.filterMap (Clause.merged? left)).foldlM o.keep .empty := by
  simp only [multiply, foldlM_addProduct, foldlM_flatMap, map_eq_pure_bind]

theorem scripted_multiply (lefts rights : List Clause) :
    o.Scripted (multiply o lefts rights) (Clause.productReports lefts rights)
      (Clause.product lefts rights) := by
  have kept := Observer.Scripted.foldlM (scripted_keep o)
    (lefts.flatMap fun left => rights.filterMap (Clause.merged? left)) Distinct.empty
  rw [foldReports_keep_empty] at kept
  rw [multiply_eq, Clause.product, ← toList_foldl_add]
  exact Observer.Scripted.bind (.tell .distribution) (kept.map Distinct.toList)

theorem scripted_productOf (factors : List (List Clause)) :
    o.Scripted (productOf o factors) (Clause.productsReports factors)
      (Clause.products factors) := by
  cases factors with
  | nil => exact .pure _
  | cons factor factors =>
      exact Observer.Scripted.foldlM (scripted_multiply o) factors factor

end Products

end Expression

end ClauseForm
