import ClauseForm.NormalForm.Negation
import ClauseForm.Proofs.Meaning

/-!
The proper atoms of a formula: its named truth values and comparisons.

Everything that a formula mentions stands in one of its proper atoms, so a transformation that only
moves atoms around, or replaces them by their opposites, brings in nothing new.
-/

namespace ClauseForm

/-- The comparison that a symbol stands for. -/
def Symbol.comparison? : Symbol → Option Comparison
  | compare c => some c
  | _ => none

/-- Decides whether a symbol is a named truth value or a comparison. -/
def Symbol.isProper : Symbol → Bool
  | literal .. | compare _ => true
  | _ => false

namespace Expression

/-- Atoms with an opposite that is not a constant: named truth values and comparisons. -/
inductive ProperAtom : Expression → Prop where
  | literal (name : String) (positive : Bool) : ProperAtom (node (.literal name positive) [])
  | compare (c : Comparison) {l r : Expression} :
      TermTree l → TermTree r → ProperAtom (node (.compare c) [l, r])

theorem ProperAtom.formulaTree {a : Expression} (ha : ProperAtom a) : FormulaTree a := by
  cases ha with
  | literal name positive => exact .literal name positive
  | compare c hl hr => exact .compare c hl hr

namespace ProperAtom

variable {a : Expression}

theorem opposite (ha : ProperAtom a) : ProperAtom a.opposite := by
  cases ha with
  | literal name positive => exact .literal name !positive
  | compare c hl hr => exact .compare c.opposite hl hr

theorem opposite_opposite (ha : ProperAtom a) : a.opposite.opposite = a := by
  cases ha with
  | literal => simp [Expression.opposite, Expression.literal]
  | compare => simp [Expression.opposite]

theorem truthIn_opposite (ha : ProperAtom a) (ι : Interpretation) :
    truthIn ι a.opposite = !truthIn ι a := by
  cases ha with
  | literal name positive =>
      cases positive <;> cases h : ι.truth name <;>
        simp [Expression.opposite, Expression.literal, truthIn, h]
  | compare c => exact c.holds_opposite _ _

theorem occurrences_opposite (ha : ProperAtom a) : a.opposite.occurrences = a.occurrences := by
  cases ha with
  | literal => simp [Expression.opposite, Expression.literal, occurrences_node, Symbol.occurrence?]
  | compare => simp [Expression.opposite, occurrences_node, Symbol.occurrence?]

theorem isAtom (ha : ProperAtom a) : a.symbol.isAtom = true := by
  cases ha <;> rfl

end ProperAtom

/-- The proper atoms of an expression, from left to right. -/
def atoms (e : Expression) : List Expression := e.preOrder.filter fun n => n.symbol.isProper

/-- The comparisons in an expression, from left to right. -/
def comparisons (e : Expression) : List Comparison :=
  e.preOrder.filterMap fun n => n.symbol.comparison?

theorem atoms_node (s : Symbol) (es : List Expression) :
    (node s es).atoms = (if s.isProper then [node s es] else []) ++ es.flatMap atoms := by
  rw [atoms, preOrder_node, List.filter_cons, List.filter_flatMap]
  change _ = _ ++ es.flatMap fun e => e.preOrder.filter fun n => n.symbol.isProper
  cases h : s.isProper <;> simp [h]

theorem comparisons_eq (e : Expression) :
    e.comparisons = e.atoms.filterMap fun a => a.symbol.comparison? := by
  rw [comparisons, atoms, List.filterMap_filter]
  congr 1
  funext n
  cases n.symbol <;> rfl

theorem atoms_of_term {e : Expression} (he : TermTree e) : e.atoms = [] := by
  induction he with
  | unknown | constant => simp [atoms_node, Symbol.isProper]
  | sum hne hes ih | product hne hes ih =>
      simpa [atoms_node, Symbol.isProper, List.flatMap_eq_nil_iff] using ih

theorem ProperAtom.atoms_eq {a : Expression} (ha : ProperAtom a) : a.atoms = [a] := by
  cases ha with
  | literal => simp [atoms_node, Symbol.isProper]
  | compare c hl hr =>
      simp [atoms_node, Symbol.isProper, atoms_of_term hl, atoms_of_term hr]

/-- An atom occurs in a formula, in itself or as its opposite. -/
def Mentions (e a : Expression) : Prop := a ∈ e.atoms ∨ a.opposite ∈ e.atoms

theorem Mentions.node {s : Symbol} {es : List Expression} {e a : Expression} (he : e ∈ es)
    (h : e.Mentions a) : (node s es).Mentions a := by
  have operand : ∀ b, b ∈ e.atoms → b ∈ (Expression.node s es).atoms := by
    intro b hb
    rw [atoms_node]
    exact List.mem_append_right _ (List.mem_flatMap.mpr ⟨e, he, hb⟩)
  exact h.imp (operand a) (operand a.opposite)

theorem Mentions.opposite {e a : Expression} (h : e.Mentions a) (ha : ProperAtom a) :
    e.Mentions a.opposite := by
  rw [Mentions, ha.opposite_opposite]
  exact h.symm

theorem Mentions.trans {e f a : Expression} (h : f.Mentions a)
    (hsub : ∀ b ∈ f.atoms, e.Mentions b) (ha : ProperAtom a) : e.Mentions a := by
  rcases h with h | h
  · exact hsub a h
  · have := (hsub a.opposite h).opposite ha.opposite
    rwa [ha.opposite_opposite] at this

/-- Induction over formulas that does not tell one connective from another. -/
theorem FormulaTree.junction_induction {motive : (e : Expression) → FormulaTree e → Prop}
    (atom : ∀ {a : Expression} (ha : ProperAtom a), motive a ha.formulaTree)
    (junction : ∀ {s : Symbol} {es : List Expression} (h : FormulaTree (node s es)),
      s.isProper = false → s.occurrence? = none → (hes : ∀ e ∈ es, FormulaTree e) →
      (∀ e, (he : e ∈ es) → motive e (hes e he)) → motive (node s es) h)
    {e : Expression} (he : FormulaTree e) : motive e he := by
  induction he with
  | verum | falsum => exact junction _ rfl rfl (by simp) (by simp)
  | literal name positive => exact atom (.literal name positive)
  | compare c hl hr => exact atom (.compare c hl hr)
  | not he ih =>
      apply junction _ rfl rfl (by simpa using he)
      intro f hf
      obtain rfl := List.mem_singleton.mp hf
      exact ih
  | and hes ih | or hes ih => exact junction _ rfl rfl hes ih
  | implies hl hr ihl ihr | equivalent hl hr ihl ihr =>
      apply junction _ rfl rfl (by simpa using ⟨hl, hr⟩)
      intro f hf
      rcases List.mem_pair.mp hf with rfl | rfl
      · exact ihl
      · exact ihr

theorem properAtom_of_mem_atoms {e a : Expression} (he : FormulaTree e) (ha : a ∈ e.atoms) :
    ProperAtom a := by
  induction he using FormulaTree.junction_induction with
  | atom hb =>
      rw [hb.atoms_eq, List.mem_singleton] at ha
      rwa [ha]
  | junction _ hs _ hes ih =>
      rw [atoms_node, hs] at ha
      obtain ⟨e, he, ha⟩ := List.mem_flatMap.mp ha
      exact ih e he ha

/-- A variable of a formula stands in one of its atoms. -/
theorem mem_occurrences_iff {e : Expression} (he : FormulaTree e) {x : Variable} :
    x ∈ e.occurrences ↔ ∃ a ∈ e.atoms, x ∈ a.occurrences := by
  induction he using FormulaTree.junction_induction with
  | atom ha => simp [ha.atoms_eq]
  | @junction s es _ hs hnone hes ih =>
      have operands : (∃ e ∈ es, x ∈ e.occurrences) ↔
          ∃ e ∈ es, ∃ a ∈ e.atoms, x ∈ a.occurrences :=
        exists_congr fun e => and_congr_right fun he => ih e he
      simp only [occurrences_node, atoms_node, hs, hnone, Option.toList_none, List.nil_append,
        List.mem_flatMap, operands, Bool.false_eq_true, if_false]
      constructor
      · rintro ⟨e, he, a, ha, hx⟩
        exact ⟨a, ⟨e, he, ha⟩, hx⟩
      · rintro ⟨a, ⟨e, he, ha⟩, hx⟩
        exact ⟨e, he, a, ha, hx⟩

theorem Mentions.mem_occurrences {e a : Expression} (he : FormulaTree e) (h : e.Mentions a)
    (ha : ProperAtom a) {x : Variable} (hx : x ∈ a.occurrences) : x ∈ e.occurrences := by
  rcases h with h | h
  · exact (mem_occurrences_iff he).mpr ⟨a, h, hx⟩
  · exact (mem_occurrences_iff he).mpr ⟨a.opposite, h, by rwa [ha.occurrences_opposite]⟩

/-- A formula that mentions only atoms of another one mentions only its variables. -/
theorem mem_occurrences_of_mentions {e f : Expression} (he : FormulaTree e) (hf : FormulaTree f)
    (h : ∀ a ∈ f.atoms, e.Mentions a) {x : Variable} (hx : x ∈ f.occurrences) :
    x ∈ e.occurrences := by
  obtain ⟨a, ha, hx⟩ := (mem_occurrences_iff hf).mp hx
  exact (h a ha).mem_occurrences he (properAtom_of_mem_atoms hf ha) hx

end Expression

end ClauseForm
