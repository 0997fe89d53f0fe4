import Mathlib.Data.List.Nodup

/-!
The first occurrences of the items of a list.

`List.eraseDups` keeps every item at its first place.  `eraseDups_flatMap_eraseDups` says that what
occurs in a list of parts can be listed part by part, and `pairwise_idxOf_eraseDups` that the items
kept stand in the order in which they are first found.
-/

namespace ClauseForm

theorem eraseDups_sublist {α : Type} [BEq α] (as : List α) : as.eraseDups.Sublist as := by
  match as with
  | [] => exact .slnil
  | a :: as =>
      rw [List.eraseDups_cons]
      exact ((eraseDups_sublist (as.filter fun b => !b == a)).trans List.filter_sublist).cons_cons a
termination_by as.length
decreasing_by exact Nat.lt_succ_of_le (List.length_filter_le _ _)

theorem removeAll_cons_right {α : Type} [BEq α] (as bs : List α) (b : α) :
    as.removeAll (b :: bs) = (as.removeAll bs).filter fun a => !a == b := by
  simp only [List.removeAll, List.filter_filter, List.elem_eq_contains, List.contains_cons,
    Bool.not_or]

variable {α β : Type} [BEq α] [LawfulBEq α]

theorem nodup_eraseDups (as : List α) : as.eraseDups.Nodup := by
  match as with
  | [] => simp
  | a :: as =>
      rw [List.eraseDups_cons, List.nodup_cons, List.mem_eraseDups]
      exact ⟨by simp, nodup_eraseDups _⟩
termination_by as.length
decreasing_by exact Nat.lt_succ_of_le (List.length_filter_le _ _)

/-- Up to its order, what is left of a list depends on nothing but its members. -/
theorem eraseDups_perm_of_mem_iff {as bs : List α} (h : ∀ a, a ∈ as ↔ a ∈ bs) :
    as.eraseDups.Perm bs.eraseDups :=
  (List.perm_ext_iff_of_nodup (nodup_eraseDups as) (nodup_eraseDups bs)).mpr fun a => by
    rw [List.mem_eraseDups, List.mem_eraseDups, h]

theorem eraseDups_eq_self {as : List α} (h : as.Nodup) : as.eraseDups = as := by
  induction as with
  | nil => rfl
  | cons a as ih =>
      obtain ⟨hnew, hrest⟩ := List.nodup_cons.mp h
      have hkept : as.filter (fun b => !b == a) = as :=
        List.filter_eq_self.mpr fun b hb => by simpa using ne_of_mem_of_not_mem hb hnew
      rw [List.eraseDups_cons, hkept, ih hrest]

theorem eraseDups_eraseDups (as : List α) : as.eraseDups.eraseDups = as.eraseDups :=
  eraseDups_eq_self (nodup_eraseDups as)

theorem filter_eraseDups (p : α → Bool) (as : List α) :
    as.eraseDups.filter p = (as.filter p).eraseDups := by
  match as with
  | [] => rfl
  | a :: as =>
      have ih := filter_eraseDups p (as.filter fun b => !b == a)
      rw [List.filter_filter] at ih
      cases ha : p a with
      | true =>
          rw [List.eraseDups_cons, List.filter_cons_of_pos ha, List.filter_cons_of_pos ha,
            List.eraseDups_cons, ih, List.filter_filter]
          congr 3
          funext b
          exact Bool.and_comm _ _
      | false =>
          -- Whatever `p` keeps differs from `a`, so erasing `a` first makes no difference.
          have hsame : (fun b => p b && !b == a) = p := by
            funext b
            by_cases hb : b = a <;> simp [hb, ha]
          rw [List.eraseDups_cons, List.filter_cons_of_neg (by simp [ha]),
            List.filter_cons_of_neg (by simp [ha]), ih, hsame]
termination_by as.length
decreasing_by exact Nat.lt_succ_of_le (List.length_filter_le _ _)

theorem eraseDups_append_eraseDups (as bs : List α) :
    (as.eraseDups ++ bs.eraseDups).eraseDups = (as ++ bs).eraseDups := by
  have hleft : bs.eraseDups.removeAll as.eraseDups = bs.eraseDups.removeAll as := by
    simp only [List.removeAll, List.elem_eq_mem, List.mem_eraseDups]
  have hright : bs.eraseDups.removeAll as = (bs.removeAll as).eraseDups :=
    filter_eraseDups _ bs
  rw [List.eraseDups_append, List.eraseDups_append, hleft, hright, eraseDups_eraseDups,
    eraseDups_eraseDups]

theorem eraseDups_append_right (as bs : List α) :
    (as.eraseDups ++ bs).eraseDups = (as ++ bs).eraseDups := by
  rw [← eraseDups_append_eraseDups, eraseDups_eraseDups, eraseDups_append_eraseDups]

theorem eraseDups_concat (as : List α) (a : α) :
    (as ++ [a]).eraseDups = if a ∈ as then as.eraseDups else as.eraseDups ++ [a] := by
  rw [List.eraseDups_append]
  by_cases h : a ∈ as <;> simp [h, List.removeAll, List.eraseDups_cons]

/-- What occurs in the parts of a list can be listed part by part. -/
theorem eraseDups_flatMap_eraseDups (f : β → List α) (bs : List β) :
    (bs.flatMap fun b => (f b).eraseDups).eraseDups = (bs.flatMap f).eraseDups := by
  induction bs with
  | nil => rfl
  | cons b bs ih =>
      rw [List.flatMap_cons, List.flatMap_cons, ← eraseDups_append_eraseDups, ih,
        eraseDups_eraseDups, eraseDups_append_eraseDups]

theorem eraseDups_append_self (as : List α) : (as ++ as).eraseDups = as.eraseDups := by
  have hnone : as.removeAll as = [] := by simp [List.removeAll]
  rw [List.eraseDups_append, hnone, List.eraseDups_nil, List.append_nil]

theorem eraseDups_cons_eq (a : α) (as : List α) :
    (a :: as).eraseDups = a :: as.eraseDups.filter fun b => !b == a := by
  rw [List.eraseDups_cons, filter_eraseDups]

/-- The first occurrences stand in the order in which the items are found. -/
theorem pairwise_idxOf_eraseDups (as : List α) :
    as.eraseDups.Pairwise fun a b => as.idxOf a < as.idxOf b := by
  induction as with
  | nil => exact .nil
  | cons a as ih =>
      rw [eraseDups_cons_eq, List.pairwise_cons]
      have hlater : ∀ b ∈ as.eraseDups.filter (fun b => !b == a),
          (a :: as).idxOf b = as.idxOf b + 1 := by
        intro b hb
        have hother : b ≠ a := by simpa using (List.mem_filter.mp hb).2
        exact List.idxOf_cons_ne as hother.symm
      constructor
      · intro b hb
        rw [List.idxOf_cons_self, hlater b hb]
        exact Nat.succ_pos _
      · refine (ih.filter _).imp_of_mem fun {b c} hb hc h => ?_
        rw [hlater b hb, hlater c hc]
        exact Nat.succ_lt_succ h

/-- What a repeated item adds to a list is there already. -/
theorem eraseDups_append_flatMap_filter (f : β → List α) [BEq β] [LawfulBEq β] (b : β)
    (bs : List β) :
    (f b ++ (bs.filter fun c => !c == b).flatMap f).eraseDups =
      (f b ++ bs.flatMap f).eraseDups := by
  have hnone : (f b).removeAll (f b) = [] := by simp [List.removeAll]
  have hsame : ((bs.filter fun c => !c == b).flatMap f).removeAll (f b) =
      (bs.flatMap f).removeAll (f b) := by
    induction bs with
    | nil => rfl
    | cons c bs ih =>
        simp only [List.removeAll] at ih hnone ⊢
        by_cases hequal : c = b
        · rw [List.filter_cons_of_neg (by simpa using hequal), ih, List.flatMap_cons, hequal,
            List.filter_append, hnone, List.nil_append]
        · rw [List.filter_cons_of_pos (by simpa using hequal), List.flatMap_cons,
            List.flatMap_cons, List.filter_append, List.filter_append, ih]
  rw [List.eraseDups_append, List.eraseDups_append, hsame]

/-- Repeated items add nothing to what occurs in all parts together. -/
theorem eraseDups_flatMap_of_eraseDups (f : β → List α) [BEq β] [LawfulBEq β] (bs : List β) :
    (bs.eraseDups.flatMap f).eraseDups = (bs.flatMap f).eraseDups := by
  induction bs with
  | nil => rfl
  | cons b bs ih =>
      rw [eraseDups_cons_eq, List.flatMap_cons, eraseDups_append_flatMap_filter,
        ← eraseDups_append_eraseDups, ih, eraseDups_append_eraseDups, List.flatMap_cons]

/-- A list has no more different items after a change than before. -/
theorem length_eraseDups_map_le [BEq β] [LawfulBEq β] (f : β → α) (bs : List β) :
    (bs.map f).eraseDups.length ≤ bs.eraseDups.length := by
  have hkept : (bs.map f).eraseDups = (bs.eraseDups.map f).eraseDups := by
    rw [List.map_eq_flatMap, List.map_eq_flatMap, eraseDups_flatMap_of_eraseDups]
  calc (bs.map f).eraseDups.length
      = (bs.eraseDups.map f).eraseDups.length := by rw [hkept]
    _ ≤ (bs.eraseDups.map f).length := (eraseDups_sublist _).length_le
    _ = bs.eraseDups.length := List.length_map f

/-- A list has no fewer different items than its beginning. -/
theorem length_eraseDups_le_append (as bs : List α) :
    as.eraseDups.length ≤ (as ++ bs).eraseDups.length := by
  rw [List.eraseDups_append, List.length_append]
  exact Nat.le_add_right ..

/-- Items that stay different after a change stay at their first places. -/
theorem eraseDups_map_of_injective [BEq β] [LawfulBEq β] {f : β → α} {bs : List β}
    (hf : ∀ b ∈ bs, ∀ c ∈ bs, f b = f c → b = c) : (bs.map f).eraseDups = bs.eraseDups.map f := by
  induction bs with
  | nil => rfl
  | cons b bs ih =>
      have hrest : ∀ c ∈ bs, ∀ d ∈ bs, f c = f d → c = d := fun c hc d hd =>
        hf c (List.mem_cons_of_mem b hc) d (List.mem_cons_of_mem b hd)
      rw [List.map_cons, eraseDups_cons_eq, eraseDups_cons_eq, ih hrest, List.map_cons,
        List.filter_map]
      congr 2
      apply List.filter_congr
      intro c hc
      have hmem := List.mem_cons_of_mem b (List.mem_eraseDups.mp hc)
      have hiff : f c = f b ↔ c = b := ⟨hf c hmem b List.mem_cons_self, congrArg f⟩
      rw [Bool.eq_iff_iff]
      simp [hiff]

end ClauseForm
