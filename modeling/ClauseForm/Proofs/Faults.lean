import ClauseForm.Fault
import Mathlib.Data.List.Basic

/-!
Results that are values, and collecting the faults of many results.

Results that are values barring faults are collected into the list of their values, barring the
faults of all of them in order.
-/

namespace ClauseForm

/-! ### Results that are values -/

section Results

variable {ε ε' α β : Type} {x : Except ε α} {b : β}

theorem except_bind_eq_ok {f : α → Except ε β} (h : x >>= f = .ok b) :
    ∃ a, x = .ok a ∧ f a = .ok b := by
  cases x with
  | error e => contradiction
  | ok a => exact ⟨a, rfl, h⟩

theorem map_eq_ok {f : α → β} (h : x.map f = .ok b) : ∃ a, x = .ok a ∧ f a = b := by
  cases x with
  | error e => contradiction
  | ok a => exact ⟨a, rfl, Except.ok.inj h⟩

theorem mapError_eq_ok {f : ε → ε'} {a : α} (h : x.mapError f = .ok a) : x = .ok a := by
  cases x with
  | error e => contradiction
  | ok b => exact congrArg Except.ok (Except.ok.inj h)

end Results

namespace Faults

variable {α β : Type} {faults : List Fault}

/-- With faults it does not matter which value they bar. -/
theorem barring_congr {value other : α} (h : faults = [] → value = other) :
    barring faults value = barring faults other := by
  cases faults with
  | nil => rw [h rfl]
  | cons => rfl

theorem exists_barring_eq_error (h : faults ≠ []) (value : α) :
    ∃ fs, barring faults value = .error fs ∧ fs.toList = faults := by
  obtain ⟨f, others, rfl⟩ := List.exists_cons_of_ne_nil h
  exact ⟨⟨f, others⟩, rfl, rfl⟩

/-- Results that bar values tell the faults that they bar them for. -/
theorem faults_eq_of_barring_eq {others : List Fault} {value other : α}
    (h : barring faults value = barring others other) : faults = others := by
  cases faults <;> cases others <;> simp_all [barring]

theorem barring_map (value : α) (f : α → β) :
    (barring faults value).map f = barring faults (f value) := by
  cases faults <;> rfl

theorem barring_bind (value : α) (f : α → β) :
    (barring faults value >>= fun a => pure (f a)) = barring faults (f value) := by
  cases faults <;> rfl

/-- Where a test decides whether there is a fault, the faults are those of what fails the test. -/
theorem filterMap_eq_map_filter {fault? : α → Option Fault} {p : α → Bool} {fault : α → Fault}
    (h : ∀ a, fault? a = if p a then none else some (fault a)) (as : List α) :
    as.filterMap fault? = (as.filter fun a => !p a).map fault := by
  induction as with
  | nil => rfl
  | cons a as ih =>
      rw [List.filterMap_cons, List.filter_cons, h, ih]
      cases p a <;> rfl

theorem exists_barring_eq_ok_iff {p : α → Bool} {fault : α → Fault} {as : List α} {value : β} :
    (∃ b, barring ((as.filter fun a => !p a).map fault) value = .ok b) ↔
      ∀ a ∈ as, p a = true := by
  simp [barring_eq_ok_iff]

/-- What is wrong with a result, if anything is. -/
def ofResult? : Except Fault α → Option Fault
  | .error f => some f
  | .ok _ => none

theorem ofResult?_map (r : Except Fault α) (f : α → β) : ofResult? (r.map f) = ofResult? r := by
  cases r <;> rfl

theorem collect_map (as : List β) (f : β → Except Fault α) :
    collect (as.map f) =
      barring (as.filterMap fun a => ofResult? (f a)) (as.filterMap fun a => (f a).toOption) := by
  unfold collect
  rw [List.filterMap_map, List.filterMap_map]
  congr
  funext a
  dsimp only [Function.comp]
  cases f a <;> rfl

theorem collectAll_map_barring (as : List α) (faults : α → List Fault) (value : α → β) :
    collectAll (as.map fun a => barring (faults a) (value a)) =
      barring (as.flatMap faults) (as.map value) := by
  unfold collectAll
  rw [List.flatMap_map, List.filterMap_map]
  refine (congrArg (barring · _) (List.flatMap_congr fun a _ => ?_)).trans (barring_congr ?_)
  · cases faults a <;> rfl
  · intro hnone
    rw [← List.filterMap_eq_map]
    apply List.filterMap_congr
    intro a ha
    have := List.flatMap_eq_nil_iff.mp hnone a ha
    simp [this, barring]

/-- Both results are failures, or both are values and these are related. -/
def Alike (r : α → β → Prop) : Except Faults α → Except Faults β → Prop
  | .ok a, .ok b => r a b
  | .error _, .error _ => True
  | _, _ => False

theorem collectAll_cons_ok (a : α) (results : List (Except Faults α)) :
    collectAll (.ok a :: results) = (collectAll results).map (a :: ·) := by
  rw [collectAll, collectAll, List.flatMap_cons, List.filterMap_cons, List.nil_append, barring_map]

/-- Lists of results that are alike are collected alike. -/
theorem alike_collectAll {r : α → β → Prop} {xs : List (Except Faults α)}
    {ys : List (Except Faults β)} (h : List.Forall₂ (Alike r) xs ys) :
    Alike (List.Forall₂ r) (collectAll xs) (collectAll ys) := by
  induction h with
  | nil => exact List.Forall₂.nil
  | @cons x y xs ys hfirst _ ih =>
      cases x with
      | error fs =>
          cases y with
          | error gs => trivial
          | ok b => contradiction
      | ok a =>
          cases y with
          | error gs => contradiction
          | ok b =>
              rw [collectAll_cons_ok, collectAll_cons_ok]
              cases hxs : collectAll xs <;> cases hys : collectAll ys <;> rw [hxs, hys] at ih
              · trivial
              · contradiction
              · contradiction
              · exact List.Forall₂.cons hfirst ih

end Faults

end ClauseForm
