import ClauseForm.Clauses.Dual
import Mathlib.Algebra.Group.Nat.Defs
import Mathlib.Data.List.Forall2
import Mathlib.Data.List.Range

/-!
The selections of a position in each of some clauses.

`selections` lists all of them in lexicographic order.  The counter that picks the literals of a
choice starts at the first one, goes from each to the next, and stops at the last, unless a clause
is empty; so it visits every selection exactly once.
-/

namespace ClauseForm

namespace Clauses

/-- All selections of a position in each clause, where the position in the last clause changes
fastest. -/
def selections : List Clause → List (List Nat)
  | [] => [[]]
  | c :: cs => (List.range c.size).flatMap fun i => (selections cs).map (i :: ·)

variable {c : Clause} {cs : List Clause} {i : Nat} {s t : List Nat} {sels : List (List Nat)}

/-- A selection has a position inside of each clause. -/
theorem mem_selections : s ∈ selections cs ↔ List.Forall₂ (fun i c => i < c.size) s cs := by
  induction cs generalizing s with
  | nil => rw [selections, List.mem_singleton, List.forall₂_nil_right_iff]
  | cons c cs ih =>
      simp only [selections, List.mem_flatMap, List.mem_range, List.mem_map, ih,
        List.forall₂_cons_right_iff]
      constructor
      · rintro ⟨i, hi, s, hs, rfl⟩
        exact ⟨i, s, hi, hs, rfl⟩
      · rintro ⟨i, s, hi, hs, rfl⟩
        exact ⟨i, hi, s, hs, rfl⟩

theorem length_selections (cs : List Clause) :
    (selections cs).length = (cs.map Literals.size).prod := by
  induction cs with
  | nil => rfl
  | cons c cs ih => simp [selections, List.length_flatMap, ih, List.map_const']

/-- The selections increase lexicographically. -/
theorem pairwise_selections (cs : List Clause) :
    (selections cs).Pairwise (List.Lex (· < ·)) := by
  induction cs with
  | nil => exact List.pairwise_singleton ..
  | cons c cs ih =>
      rw [selections, List.pairwise_flatMap]
      constructor
      · intro i _
        exact List.pairwise_map.mpr (ih.imp .cons)
      · refine List.pairwise_lt_range.imp fun hless s hs t ht => ?_
        obtain ⟨s, -, rfl⟩ := List.mem_map.mp hs
        obtain ⟨t, -, rfl⟩ := List.mem_map.mp ht
        exact .rel hless

/-! ### The counter -/

/-- The counter goes from the first selection to the last one. -/
structure CountsThrough (cs : List Clause) (sels : List (List Nat)) : Prop where
  starts : sels.head? = some (List.replicate cs.length 0)
  steps : sels.IsChain fun s t => advance cs s = (true, t)
  ends : ∀ s ∈ sels.getLast?, advance cs s = (false, List.replicate cs.length 0)

theorem advance_of_moved (h : advance cs s = (true, t)) :
    advance (c :: cs) (i :: s) = (true, i :: t) := by
  rw [advance, h]

theorem advance_of_stopped (h : advance cs s = (false, t)) :
    advance (c :: cs) (i :: s) =
      if i + 1 < c.size then (true, (i + 1) :: t) else (false, 0 :: t) := by
  rw [advance, h]

theorem CountsThrough.map_cons_ne_nil (h : CountsThrough cs sels) (i : Nat) :
    sels.map (i :: ·) ≠ [] := by
  intro hnil
  have hstarts := h.starts
  rw [List.map_eq_nil_iff.mp hnil] at hstarts
  contradiction

/-- With one more clause in front, the counter goes through the selections once for each position in
that clause. -/
theorem CountsThrough.cons (h : CountsThrough cs sels) (hc : 0 < c.size) :
    CountsThrough (c :: cs) ((List.range c.size).flatMap fun i => sels.map (i :: ·)) := by
  obtain ⟨n, hn⟩ : ∃ n, c.size = n + 1 := Nat.exists_eq_add_one.mpr hc
  constructor
  · rw [hn, List.range_succ_eq_map, List.flatMap_cons,
      List.head?_append_of_ne_nil _ (h.map_cons_ne_nil 0), List.head?_map, h.starts]
    rfl
  · have hnil : [] ∉ (List.range c.size).map fun i => sels.map (i :: ·) := by
      intro hmem
      obtain ⟨i, -, hnil⟩ := List.mem_map.mp hmem
      exact h.map_cons_ne_nil i hnil
    rw [List.flatMap_def, List.isChain_flatten hnil]
    constructor
    · refine List.forall_mem_map.mpr fun i _ => ?_
      exact (List.isChain_map _).mpr (h.steps.imp fun s t => advance_of_moved)
    · refine (List.isChain_map _).mpr ((List.isChain_range _ _).mpr fun i hi => ?_)
      -- The selections behind the first position are used up, and start again behind the next one.
      intro last hlast first hfirst
      rw [List.getLast?_map] at hlast
      rw [List.head?_map, h.starts] at hfirst
      obtain ⟨s, hs, rfl⟩ := Option.map_eq_some_iff.mp hlast
      obtain rfl := Option.some.inj hfirst
      rw [advance_of_stopped (h.ends s hs), if_pos (by omega)]
  · rw [hn, List.range_succ, List.flatMap_append, List.flatMap_singleton,
      List.getLast?_append_of_ne_nil _ (h.map_cons_ne_nil n), List.getLast?_map]
    intro t ht
    obtain ⟨s, hs, rfl⟩ := Option.map_eq_some_iff.mp ht
    rw [advance_of_stopped (h.ends s hs), if_neg (by omega)]
    rfl

theorem countsThrough_selections (hcs : ∀ c ∈ cs, 0 < c.size) :
    CountsThrough cs (selections cs) := by
  induction cs with
  | nil => exact ⟨rfl, .singleton _, by simp [selections, advance]⟩
  | cons c cs ih =>
      obtain ⟨hc, hcs⟩ := List.forall_mem_cons.mp hcs
      exact (ih hcs).cons hc

section Visits

variable {m : Type → Type} [Monad m] {α : Type}

/-- Where the counter goes through some selections, these are visited. -/
theorem visitSelections_of_isChain (visit : α → List Int → m α) (state : α)
    (hsteps : (s :: sels).IsChain fun s t => advance cs s = (true, t))
    (hends : ∀ t ∈ (s :: sels).getLast?, advance cs t = (false, List.replicate cs.length 0)) :
    visitSelections visit cs s state =
      (s :: sels).foldlM (fun state s => visit state (picked cs s)) state := by
  induction sels generalizing s state with
  | nil =>
      have hstop := hends s rfl
      rw [visitSelections, List.foldlM_cons]
      congr 1
      funext state
      split
      · next hnext => cases hstop.symm.trans hnext
      · rfl
  | cons t sels ih =>
      obtain ⟨hstep, hsteps⟩ := List.isChain_cons_cons.mp hsteps
      rw [List.getLast?_cons_cons] at hends
      rw [visitSelections, List.foldlM_cons]
      congr 1
      funext state
      split
      · next next hnext =>
          obtain rfl : t = next := (Prod.mk.inj (hstep.symm.trans hnext)).2
          exact ih state hsteps hends
      · next hnext => cases hstep.symm.trans hnext

/-- Visiting all selections is a fold over the list of them. -/
theorem visitSelections_eq (visit : α → List Int → m α) (hcs : ∀ c ∈ cs, 0 < c.size) (state : α) :
    visitSelections visit cs (List.replicate cs.length 0) state =
      (selections cs).foldlM (fun state s => visit state (picked cs s)) state := by
  obtain ⟨hstarts, hsteps, hends⟩ := countsThrough_selections hcs
  obtain ⟨rest, hrest⟩ := List.head?_eq_some_iff.mp hstarts
  rw [hrest] at hsteps hends ⊢
  exact visitSelections_of_isChain visit state hsteps hends

end Visits

end Clauses

end ClauseForm
