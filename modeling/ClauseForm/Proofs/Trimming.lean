import ClauseForm.Text.Blank
import Mathlib.Data.List.DropRight
import Mathlib.Data.List.Induction

/-!
What trimming does to a text.

A trimmed text neither begins nor ends with white space, and a text that does not is left as it is.
-/

namespace ClauseForm.Text

variable {cs : List Char}

theorem trim_eq_rdropWhile (cs : List Char) :
    trim cs = (cs.dropWhile isBlank).rdropWhile isBlank := rfl

/-- Trimming leaves a part of the text. -/
theorem trim_sublist (cs : List Char) : (trim cs).Sublist cs :=
  (List.rdropWhile_prefix isBlank _).sublist.trans (List.dropWhile_sublist isBlank)

theorem isBlank_head_trim (cs : List Char) : ∀ c ∈ (trim cs).head?, isBlank c = false := by
  intro c hc
  obtain ⟨rest, hrest⟩ := List.rdropWhile_prefix isBlank (cs.dropWhile isBlank)
  have hfirst := List.head?_dropWhile_not isBlank cs
  rw [← hrest, ← trim_eq_rdropWhile, List.head?_append, hc] at hfirst
  exact hfirst

theorem isBlank_getLast_trim (cs : List Char) : ∀ c ∈ (trim cs).getLast?, isBlank c = false := by
  intro c hc
  obtain ⟨hne, rfl⟩ := List.mem_getLast?_eq_getLast hc
  exact Bool.eq_false_iff.mpr (List.rdropWhile_last_not isBlank (cs.dropWhile isBlank) hne)

/-- What has no white space at its ends is not trimmed. -/
theorem trim_eq_self (hhead : ∀ c ∈ cs.head?, isBlank c = false)
    (hlast : ∀ c ∈ cs.getLast?, isBlank c = false) : trim cs = cs := by
  have hdrop : cs.dropWhile isBlank = cs := by
    cases cs with
    | nil => rfl
    | cons c cs => exact List.dropWhile_cons_of_neg (by simp [hhead c rfl])
  rw [trim_eq_rdropWhile, hdrop, List.rdropWhile_eq_self_iff]
  intro hne
  simp [hlast _ (List.getLast?_eq_some_getLast hne)]

theorem trim_eq_self_iff :
    trim cs = cs ↔
      (∀ c ∈ cs.head?, isBlank c = false) ∧ ∀ c ∈ cs.getLast?, isBlank c = false := by
  constructor
  · intro h
    have hhead := isBlank_head_trim cs
    have hlast := isBlank_getLast_trim cs
    rw [h] at hhead hlast
    exact ⟨hhead, hlast⟩
  · rintro ⟨hhead, hlast⟩
    exact trim_eq_self hhead hlast

theorem trim_trim (cs : List Char) : trim (trim cs) = trim cs :=
  trim_eq_self (isBlank_head_trim cs) (isBlank_getLast_trim cs)

/-- A character that is no white space is not trimmed away. -/
theorem trim_ne_nil {c : Char} (hc : c ∈ cs) (hvisible : isBlank c = false) : trim cs ≠ [] := by
  intro hnil
  have hblank := List.rdropWhile_eq_nil_iff.mp hnil
  have hall : ∀ d ∈ cs, isBlank d = true := by
    cases hrest : cs.dropWhile isBlank with
    | nil => exact List.dropWhile_eq_nil_iff.mp hrest
    | cons d ds =>
        have hfirst := List.head?_dropWhile_not isBlank cs
        rw [hrest] at hfirst hblank
        exact absurd hfirst (Bool.eq_false_iff.not.mpr (not_not.mpr (hblank d List.mem_cons_self)))
  rw [hall c hc] at hvisible
  contradiction

/-! ### White space at the ends does not matter -/

theorem trim_concat_blank {c : Char} (hc : isBlank c = true) (cs : List Char) :
    trim (cs ++ [c]) = trim cs := by
  rw [trim_eq_rdropWhile, trim_eq_rdropWhile, List.dropWhile_append]
  split
  · next hblank =>
      rw [List.isEmpty_iff.mp hblank, List.dropWhile_cons_of_pos hc, List.dropWhile_nil]
  · exact List.rdropWhile_concat_pos _ _ _ hc

theorem trim_rdropWhile (cs : List Char) : trim (cs.rdropWhile isBlank) = trim cs := by
  induction cs using List.reverseRecOn with
  | nil => rfl
  | append_singleton cs c ih =>
      rw [List.rdropWhile_concat]
      split
      · next hc => rw [ih, trim_concat_blank hc]
      · rfl

theorem trim_dropWhile {p : Char → Bool} (hp : ∀ c, p c = true → isBlank c = true)
    (cs : List Char) : trim (cs.dropWhile p) = trim cs := by
  induction cs with
  | nil => rfl
  | cons c cs ih =>
      rw [List.dropWhile_cons]
      split
      · next hc =>
          rw [ih, trim_eq_rdropWhile, trim_eq_rdropWhile, List.dropWhile_cons_of_pos (hp c hc)]
      · rfl

/-- Behind a part without white space at its ends, only the white space at the end is trimmed. -/
theorem trim_append (hne : cs ≠ []) (htrim : trim cs = cs) (rest : List Char) :
    trim (cs ++ rest) = cs ++ rest.rdropWhile isBlank := by
  obtain ⟨hhead, hlast⟩ := trim_eq_self_iff.mp htrim
  have hdrop : (cs ++ rest).dropWhile isBlank = cs ++ rest := by
    obtain ⟨c, ds, rfl⟩ := List.exists_cons_of_ne_nil hne
    exact List.dropWhile_cons_of_neg (by simp [hhead c rfl])
  rw [trim_eq_rdropWhile, hdrop]
  clear hdrop
  induction rest using List.reverseRecOn with
  | nil =>
      rw [List.append_nil, List.rdropWhile_nil, List.append_nil, List.rdropWhile_eq_self_iff]
      intro hne
      simp [hlast _ (List.getLast?_eq_some_getLast hne)]
  | append_singleton rest c ih =>
      rw [← List.append_assoc, List.rdropWhile_concat, List.rdropWhile_concat]
      split
      · exact ih
      · rw [List.append_assoc]

end ClauseForm.Text
