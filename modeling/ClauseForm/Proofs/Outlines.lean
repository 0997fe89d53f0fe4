import ClauseForm.Expression.PreOrder
import Mathlib.Data.List.Infix

/-!
What a hasher learns about an expression.

A hasher takes the symbol and the number of operands of each node, from the root down.  The number
says how many trees are to follow, so what is taken of one tree is never the beginning of what is
taken of another.  `prefixFree_outlined` shows this for any way to write down symbols and numbers,
by recursion on trees and lists of trees, and `same_spec` sets it beside the comparison of two
trees.
-/

namespace ClauseForm

/-! ### Codes -/

section Codes

variable {α β ω : Type} {code : α → List ω} {other : β → List ω}

/-- No value has a code that another value's code begins with. -/
def PrefixFree (code : α → List ω) : Prop := ∀ a b, code a <+: code b → a = b

/-- A value can be told from whatever begins with its code. -/
theorem PrefixFree.eq_of_append (h : PrefixFree code) {a b : α} {l m : List ω}
    (happend : code a ++ l = code b ++ m) : a = b ∧ l = m := by
  have hsame : a = b := by
    have hfirst : code a <+: code b ++ m := happend ▸ List.prefix_append ..
    rcases List.prefix_or_prefix_of_prefix hfirst (List.prefix_append ..) with hprefix | hprefix
    · exact h a b hprefix
    · exact (h b a hprefix).symm
  subst hsame
  exact ⟨rfl, List.append_cancel_left happend⟩

/-- Codes of one piece each need only be different. -/
theorem prefixFree_singleton {f : α → ω} (hf : Function.Injective f) :
    PrefixFree fun a => [f a] := by
  intro a b h
  have hpiece : f a = f b := by simpa using h
  exact hf hpiece

/-- Codes one after the other make codes of pairs. -/
theorem PrefixFree.pair (hcode : PrefixFree code) (hother : PrefixFree other) :
    PrefixFree fun p : α × β => code p.1 ++ other p.2 := by
  rintro ⟨a, x⟩ ⟨b, y⟩ ⟨rest, h⟩
  simp only [List.append_assoc] at h
  obtain ⟨rfl, hrest⟩ := hcode.eq_of_append h
  rw [hother x y ⟨rest, hrest⟩]

end Codes

namespace Expression

/-! ### Outlines as codes -/

/-- The outline of a tree is its root and then the outlines of its operands. -/
theorem outline_node (s : Symbol) (es : List Expression) :
    (node s es).outline = (s, es.length) :: es.flatMap outline := by
  rw [outline, preOrder_node, List.map_cons, List.map_flatMap]
  rfl

section Outlined

variable {ω : Type} {code : Symbol × Nat → List ω}

mutual

/-- A tree can be told from whatever begins with its outline. -/
theorem eq_of_outline_append (hcode : PrefixFree code) (e f : Expression) {l m : List ω}
    (h : e.outline.flatMap code ++ l = f.outline.flatMap code ++ m) : e = f ∧ l = m := by
  cases e with
  | node s es =>
      cases f with
      | node t fs =>
          rw [outline_node, outline_node, List.flatMap_cons, List.flatMap_cons, List.append_assoc,
            List.append_assoc] at h
          obtain ⟨hroot, hrest⟩ := hcode.eq_of_append h
          obtain ⟨rfl, hlength⟩ := Prod.mk.inj hroot
          obtain ⟨rfl, rfl⟩ := eq_of_outlines_append hcode es fs hlength hrest
          exact ⟨rfl, rfl⟩

/-- The same for as many trees as are known to follow. -/
theorem eq_of_outlines_append (hcode : PrefixFree code) (es fs : List Expression) {l m : List ω}
    (hlength : es.length = fs.length)
    (h : (es.flatMap outline).flatMap code ++ l = (fs.flatMap outline).flatMap code ++ m) :
    es = fs ∧ l = m := by
  cases es with
  | nil =>
      obtain rfl : fs = [] := List.eq_nil_of_length_eq_zero hlength.symm
      exact ⟨rfl, h⟩
  | cons e es =>
      cases fs with
      | nil => contradiction
      | cons f fs =>
          rw [List.flatMap_cons, List.flatMap_cons, List.flatMap_append, List.flatMap_append,
            List.append_assoc, List.append_assoc] at h
          obtain ⟨rfl, hrest⟩ := eq_of_outline_append hcode e f h
          obtain ⟨rfl, rfl⟩ := eq_of_outlines_append hcode es fs (Nat.succ.inj hlength) hrest
          exact ⟨rfl, rfl⟩

end

/-- Codes of the nodes, one after the other, make codes of trees. -/
theorem prefixFree_outlined (hcode : PrefixFree code) :
    PrefixFree fun e : Expression => e.outline.flatMap code := by
  rintro e f ⟨rest, hrest⟩
  have happend : e.outline.flatMap code ++ rest = f.outline.flatMap code ++ [] := by
    rw [List.append_nil]
    exact hrest
  exact (eq_of_outline_append hcode e f happend).1

end Outlined

/-- No outline begins with the outline of another tree. -/
theorem prefixFree_outline : PrefixFree outline := by
  have hcode : PrefixFree fun p : Symbol × Nat => [p] := prefixFree_singleton Function.injective_id
  simpa only [List.flatMap_singleton'] using prefixFree_outlined hcode

/-! ### Hashers -/

/-- A hasher sees no more of a tree than its outline. -/
theorem feed_eq {σ : Type} (hasher : Hasher σ) (state : σ) (e : Expression) :
    e.feed hasher state =
      e.outline.foldl
        (fun state p => hasher.takeCount (hasher.takeSymbol state p.1) p.2) state := by
  rw [feed, outline, List.foldl_map]

section Writing

variable {ω : Type} (symbols : Symbol → List ω) (counts : Nat → List ω)

/-- The hasher that writes down all that it takes. -/
def Hasher.writing : Hasher (List ω) where
  takeSymbol written s := written ++ symbols s
  takeCount written n := written ++ counts n

/-- What is written down of a tree. -/
theorem feed_writing (written : List ω) (e : Expression) :
    e.feed (.writing symbols counts) written =
      written ++ e.outline.flatMap fun p => symbols p.1 ++ counts p.2 := by
  rw [feed_eq]
  induction e.outline generalizing written with
  | nil => simp
  | cons p outline ih =>
      rw [List.foldl_cons, ih, List.flatMap_cons]
      simp [Hasher.writing]

end Writing

/-- Two trees compare as the same exactly if they are the same tree, if their outlines are the same,
and if every hasher makes the same of them.  Even the beginning of an outline is no outline of
another tree, and what is written down of a tree is not the beginning of what is written down of
another, if that holds for symbols and for numbers. -/
theorem same_spec (e f : Expression) :
    (e.same f = true ↔ e = f) ∧
    (e.same f = true ↔ e.outline = f.outline) ∧
    (e.same f = true ↔ e.outline <+: f.outline) ∧
    (e.same f = true ↔ ∀ (σ : Type) (hasher : Hasher σ) (state : σ),
      e.feed hasher state = f.feed hasher state) ∧
    (e.same f = true → hash e = hash f) ∧
    ∀ (ω : Type) (symbols : Symbol → List ω) (counts : Nat → List ω),
      PrefixFree symbols → PrefixFree counts →
      (e.same f = true ↔
        e.feed (.writing symbols counts) [] <+: f.feed (.writing symbols counts) []) := by
  have hprefix : e.outline <+: f.outline → e = f := prefixFree_outline e f
  have hwritten : ∀ (ω : Type) (symbols : Symbol → List ω) (counts : Nat → List ω),
      PrefixFree symbols → PrefixFree counts →
      e.feed (.writing symbols counts) [] <+: f.feed (.writing symbols counts) [] → e = f := by
    intro ω symbols counts hsymbols hcounts h
    rw [feed_writing, feed_writing] at h
    exact prefixFree_outlined (hsymbols.pair hcounts) e f h
  have hfeed : (∀ (σ : Type) (hasher : Hasher σ) (state : σ),
      e.feed hasher state = f.feed hasher state) → e = f := by
    intro h
    -- One hasher is enough: the one that keeps every symbol and every number.
    refine hwritten (Symbol ⊕ Nat) (fun s => [.inl s]) (fun n => [.inr n])
      (prefixFree_singleton fun _ _ => Sum.inl.inj) (prefixFree_singleton fun _ _ => Sum.inr.inj) ?_
    rw [h]
  rw [same_iff]
  refine ⟨Iff.rfl, ⟨?_, ?_⟩, ⟨?_, hprefix⟩, ⟨?_, hfeed⟩, congrArg hash, ?_⟩
  · exact congrArg outline
  · intro h
    exact hprefix (h ▸ List.prefix_refl _)
  · rintro rfl
    exact List.prefix_refl _
  · rintro rfl σ hasher state
    rfl
  · intro ω symbols counts hsymbols hcounts
    refine ⟨?_, hwritten ω symbols counts hsymbols hcounts⟩
    rintro rfl
    exact List.prefix_refl _

namespace OutlinesWitness

/-- What a hasher is told about a symbol: which kind it is of, and then what it carries. -/
inductive Piece where
  | kind (n : Nat)
  | name (text : String)
  | sign (positive : Bool)
  | value (value : Int64)
  | count (n : Nat)

/-- The pieces of a symbol. -/
def pieces : Symbol → List Piece
  | .verum => [.kind 0]
  | .falsum => [.kind 1]
  | .literal name positive => [.kind 2, .name name, .sign positive]
  | .not => [.kind 3]
  | .and => [.kind 4]
  | .or => [.kind 5]
  | .implies => [.kind 6]
  | .equivalent => [.kind 7]
  | .compare c => [.kind 8, .kind (Comparison.all.idxOf c)]
  | .unknown name => [.kind 9, .name name]
  | .constant value => [.kind 10, .value value]
  | .sum => [.kind 11]
  | .product => [.kind 12]

theorem idxOf_comparison_injective : Function.Injective fun c => Comparison.all.idxOf c := by
  intro c d
  cases c <;> cases d <;> decide

theorem prefixFree_pieces : PrefixFree pieces := by
  intro s t h
  cases s <;> cases t <;> simp [pieces] at h ⊢
  case compare.compare c d => exact idxOf_comparison_injective h
  all_goals assumption

/-- A conjunction of a single conjunction. -/
def nested : Expression := node .and [node .and [literal "a" true]]

/-- A conjunction that starts with an empty one, so that the same symbols come in the same order. -/
def beside : Expression := node .and [node .and [], literal "a" true]

theorem same_spec_sample :
    PrefixFree pieces ∧ (PrefixFree fun n => [Piece.count n]) ∧
      nested.outline.map Prod.fst = beside.outline.map Prod.fst ∧
      nested.same beside = false ∧
      ¬ nested.outline <+: beside.outline ∧
      ¬ nested.feed (.writing pieces fun n => [Piece.count n]) [] <+:
        beside.feed (.writing pieces fun n => [Piece.count n]) [] := by
  obtain ⟨hsame, -, houtline, -, -, hwritten⟩ := same_spec nested beside
  have hcounts : PrefixFree fun n => [Piece.count n] :=
    prefixFree_singleton fun _ _ => Piece.count.inj
  have hdifferent : nested.same beside = false := by
    rw [← Bool.not_eq_true, hsame]
    simp [nested, beside]
  have hsymbols : nested.outline.map Prod.fst = beside.outline.map Prod.fst := by
    simp [nested, beside, outline_node, literal]
  refine ⟨prefixFree_pieces, hcounts, hsymbols, hdifferent, ?_, ?_⟩
  · rw [← houtline, hdifferent]
    exact Bool.false_ne_true
  · rw [← hwritten _ _ _ prefixFree_pieces hcounts, hdifferent]
    exact Bool.false_ne_true

end OutlinesWitness

end Expression

end ClauseForm
