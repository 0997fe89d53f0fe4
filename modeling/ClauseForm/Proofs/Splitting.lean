import Mathlib.Data.List.Basic

/-!
Splitting a list at the members that satisfy a predicate.
-/

namespace ClauseForm

variable {α : Type} {p : α → Bool}

/-- No part of a split list has a member to split at. -/
theorem not_of_mem_splitOnP {xs part : List α} (hpart : part ∈ xs.splitOnP p) :
    ∀ x ∈ part, p x = false := by
  induction xs generalizing part with
  | nil =>
      rw [List.splitOnP_nil, List.mem_singleton] at hpart
      simp [hpart]
  | cons x xs ih =>
      rw [List.splitOnP_cons_eq_if_modifyHead] at hpart
      obtain ⟨first, parts, hsplit⟩ := List.exists_cons_of_ne_nil (List.splitOnP_ne_nil p xs)
      rw [hsplit] at hpart ih
      split at hpart
      · rcases List.mem_cons.mp hpart with rfl | hpart
        · simp
        · exact ih hpart
      · next hx =>
          rcases List.mem_cons.mp hpart with rfl | hpart
          · exact List.forall_mem_cons.mpr ⟨by simpa using hx, ih List.mem_cons_self⟩
          · exact ih (List.mem_cons_of_mem _ hpart)

/-- The parts of a split list hold members of it. -/
theorem mem_of_mem_splitOnP {xs part : List α} (hpart : part ∈ xs.splitOnP p) :
    ∀ x ∈ part, x ∈ xs := by
  induction xs generalizing part with
  | nil =>
      rw [List.splitOnP_nil, List.mem_singleton] at hpart
      simp [hpart]
  | cons x xs ih =>
      rw [List.splitOnP_cons_eq_if_modifyHead] at hpart
      obtain ⟨first, parts, hsplit⟩ := List.exists_cons_of_ne_nil (List.splitOnP_ne_nil p xs)
      rw [hsplit] at hpart ih
      split at hpart
      · rcases List.mem_cons.mp hpart with rfl | hpart
        · simp
        · exact fun y hy => List.mem_cons_of_mem x (ih hpart y hy)
      · rcases List.mem_cons.mp hpart with rfl | hpart
        · intro y hy
          rcases List.mem_cons.mp hy with rfl | hy
          · exact List.mem_cons_self
          · exact List.mem_cons_of_mem x (ih List.mem_cons_self y hy)
        · exact fun y hy => List.mem_cons_of_mem x (ih (List.mem_cons_of_mem _ hpart) y hy)

/-- Parts without members to split at, joined by one of these, are split off again. -/
theorem splitOnP_intercalate {sep : α} (hsep : p sep = true) {parts : List (List α)}
    (hne : parts ≠ []) (hfree : ∀ part ∈ parts, ∀ x ∈ part, p x = false) :
    ([sep].intercalate parts).splitOnP p = parts := by
  induction parts with
  | nil => contradiction
  | cons part parts ih =>
      obtain ⟨hpart, hparts⟩ := List.forall_mem_cons.mp hfree
      cases parts with
      | nil =>
          rw [List.intercalate_singleton]
          exact List.splitOnP_eq_singleton hpart
      | cons next parts =>
          rw [List.intercalate_cons_cons, List.append_assoc, List.singleton_append,
            List.splitOnP_append_cons_of_forall_mem hpart _ hsep, ih (by simp) hparts]

theorem intercalate_cons (sep : α) (part : List α) (parts : List (List α)) :
    [sep].intercalate (part :: parts) = part ++ parts.flatMap (sep :: ·) := by
  induction parts generalizing part with
  | nil => rw [List.intercalate_singleton, List.flatMap_nil, List.append_nil]
  | cons next parts ih =>
      rw [List.intercalate_cons_cons, ih next, List.flatMap_cons, List.append_assoc,
        List.singleton_append, List.cons_append]

/-- What the members of all parts and the joining one satisfy, all members of the joined list do. -/
theorem forall_mem_intercalate {q : α → Prop} {sep : α} {parts : List (List α)} (hsep : q sep)
    (hparts : ∀ part ∈ parts, ∀ x ∈ part, q x) : ∀ x ∈ [sep].intercalate parts, q x := by
  cases parts with
  | nil => simp [List.intercalate]
  | cons part parts =>
      obtain ⟨hpart, hrest⟩ := List.forall_mem_cons.mp hparts
      rw [intercalate_cons]
      refine List.forall_mem_append.mpr ⟨hpart, fun x hx => ?_⟩
      obtain ⟨other, hother, hx⟩ := List.mem_flatMap.mp hx
      rcases List.mem_cons.mp hx with rfl | hx
      · exact hsep
      · exact hrest other hother x hx

theorem mem_intercalate {sep x : α} {part : List α} {parts : List (List α)} (hpart : part ∈ parts)
    (hx : x ∈ part) : x ∈ [sep].intercalate parts := by
  cases parts with
  | nil => contradiction
  | cons first parts =>
      rw [intercalate_cons, List.mem_append]
      rcases List.mem_cons.mp hpart with rfl | hpart
      · exact Or.inl hx
      · exact Or.inr (List.mem_flatMap.mpr ⟨part, hpart, List.mem_cons_of_mem sep hx⟩)

/-- The parts of a list that is split at one of its members only are joined by that member. -/
theorem intercalate_splitOnP {sep : α} (hsep : ∀ x, p x = true → x = sep) (xs : List α) :
    [sep].intercalate (xs.splitOnP p) = xs := by
  induction xs with
  | nil => rw [List.splitOnP_nil, List.intercalate_singleton]
  | cons x xs ih =>
      rw [List.splitOnP_cons_eq_if_modifyHead]
      obtain ⟨first, parts, hsplit⟩ := List.exists_cons_of_ne_nil (List.splitOnP_ne_nil p xs)
      rw [hsplit] at ih ⊢
      split
      · next hx =>
          rw [List.intercalate_cons_cons, ih, hsep x hx]
          rfl
      · rw [List.modifyHead_cons]
        cases parts with
        | nil =>
            rw [List.intercalate_singleton] at ih ⊢
            rw [ih]
        | cons next parts =>
            rw [List.intercalate_cons_cons] at ih ⊢
            rw [List.cons_append, List.cons_append, ih]

theorem intercalate_concat (sep : α) (parts : List (List α)) (last : List α) :
    [sep].intercalate (parts ++ [last]) = parts.flatMap (· ++ [sep]) ++ last := by
  induction parts with
  | nil => rw [List.nil_append, List.intercalate_singleton, List.flatMap_nil, List.nil_append]
  | cons part parts ih =>
      obtain ⟨next, rest, hrest⟩ := List.exists_cons_of_ne_nil
        (List.append_ne_nil_of_right_ne_nil parts (List.cons_ne_nil last []))
      rw [List.cons_append, hrest, List.intercalate_cons_cons, ← hrest, ih, List.flatMap_cons]
      simp only [List.append_assoc]

end ClauseForm
