import ClauseForm.Proofs.ProperAtom
import ClauseForm.Proofs.Rewriting

/-!
Negation normal form keeps what a formula means and brings in no new atoms.

By recursion on the tree there are two normal forms at every node, so each fact is proved for both
polarities at once.
-/

namespace ClauseForm

namespace Expression

/-- Trees of formulas in negation normal form. -/
inductive NnfTree : Expression → Prop where
  | verum : NnfTree (node .verum [])
  | falsum : NnfTree (node .falsum [])
  | atom {a : Expression} : ProperAtom a → NnfTree a
  | and {es : List Expression} : (∀ e ∈ es, NnfTree e) → NnfTree (node .and es)
  | or {es : List Expression} : (∀ e ∈ es, NnfTree e) → NnfTree (node .or es)

theorem NnfTree.formulaTree {e : Expression} (he : NnfTree e) : FormulaTree e := by
  induction he with
  | verum => exact .verum
  | falsum => exact .falsum
  | atom ha => exact ha.formulaTree
  | and hes ih => exact .and ih
  | or hes ih => exact .or ih

/-- Where each operand is replaced by formulas of its own atoms, no new atoms come in. -/
theorem mentions_of_operands {s t : Symbol} {es fs : List Expression} (hs : s.isProper = false)
    (hfs : ∀ f ∈ fs, ∀ a ∈ f.atoms, ∃ e ∈ es, e.Mentions a) :
    ∀ a ∈ (node s fs).atoms, (node t es).Mentions a := by
  intro a ha
  rw [atoms_node, hs] at ha
  obtain ⟨f, hf, ha⟩ := List.mem_flatMap.mp ha
  obtain ⟨e, he, hmentions⟩ := hfs f hf a ha
  exact hmentions.node he

/-- What the normal forms of a formula and of its negation have in common with the formula. -/
structure Polar.Represents (p : Polar) (e : Expression) : Prop where
  positive_tree : NnfTree p.positive
  negative_tree : NnfTree p.negative
  truthIn_positive : ∀ ι, truthIn ι p.positive = truthIn ι e
  truthIn_negative : ∀ ι, truthIn ι p.negative = !truthIn ι e
  atoms_positive : ∀ a ∈ p.positive.atoms, e.Mentions a
  atoms_negative : ∀ a ∈ p.negative.atoms, e.Mentions a

namespace Polar.Represents

theorem atom {a : Expression} (ha : ProperAtom a) : Represents ⟨a, a.opposite⟩ a where
  positive_tree := .atom ha
  negative_tree := .atom ha.opposite
  truthIn_positive _ := rfl
  truthIn_negative := ha.truthIn_opposite
  atoms_positive _ h := Or.inl h
  atoms_negative b h := by
    rw [ha.opposite.atoms_eq, List.mem_singleton] at h
    rw [Mentions, ha.atoms_eq, h, ha.opposite_opposite]
    simp

theorem verum : Represents ⟨node .verum [], node .falsum []⟩ (node .verum []) where
  positive_tree := .verum
  negative_tree := .falsum
  truthIn_positive _ := rfl
  truthIn_negative _ := rfl
  atoms_positive _ h := Or.inl h
  atoms_negative a h := by simp [atoms_node, Symbol.isProper] at h

theorem falsum : Represents ⟨node .falsum [], node .verum []⟩ (node .falsum []) where
  positive_tree := .falsum
  negative_tree := .verum
  truthIn_positive _ := rfl
  truthIn_negative _ := rfl
  atoms_positive _ h := Or.inl h
  atoms_negative a h := by simp [atoms_node, Symbol.isProper] at h

theorem not {p : Polar} {e : Expression} (he : p.Represents e) :
    Represents ⟨p.negative, p.positive⟩ (node .not [e]) where
  positive_tree := he.negative_tree
  negative_tree := he.positive_tree
  truthIn_positive := he.truthIn_negative
  truthIn_negative ι := by rw [truthIn_not, Bool.not_not, he.truthIn_positive]
  atoms_positive a h := (he.atoms_negative a h).node List.mem_cons_self
  atoms_negative a h := (he.atoms_positive a h).node List.mem_cons_self

variable {f : Expression → Polar} {es : List Expression}

theorem and (hes : ∀ e ∈ es, (f e).Represents e) :
    Represents ⟨node .and (es.map fun e => (f e).positive),
      node .or (es.map fun e => (f e).negative)⟩ (node .and es) where
  positive_tree := .and (by simpa using fun e he => (hes e he).positive_tree)
  negative_tree := .or (by simpa using fun e he => (hes e he).negative_tree)
  truthIn_positive ι := by
    rw [truthIn_and, truthIn_and, List.all_map]
    exact all_congr_of_mem fun e he => (hes e he).truthIn_positive ι
  truthIn_negative ι := by
    rw [truthIn_and, truthIn_or, List.any_map, List.not_all_eq_any_not]
    exact any_congr_of_mem fun e he => (hes e he).truthIn_negative ι
  atoms_positive := mentions_of_operands rfl (by
    simpa using fun e he a ha => ⟨e, he, (hes e he).atoms_positive a ha⟩)
  atoms_negative := mentions_of_operands rfl (by
    simpa using fun e he a ha => ⟨e, he, (hes e he).atoms_negative a ha⟩)

theorem or (hes : ∀ e ∈ es, (f e).Represents e) :
    Represents ⟨node .or (es.map fun e => (f e).positive),
      node .and (es.map fun e => (f e).negative)⟩ (node .or es) where
  positive_tree := .or (by simpa using fun e he => (hes e he).positive_tree)
  negative_tree := .and (by simpa using fun e he => (hes e he).negative_tree)
  truthIn_positive ι := by
    rw [truthIn_or, truthIn_or, List.any_map]
    exact any_congr_of_mem fun e he => (hes e he).truthIn_positive ι
  truthIn_negative ι := by
    rw [truthIn_or, truthIn_and, List.all_map, List.not_any_eq_all_not]
    exact all_congr_of_mem fun e he => (hes e he).truthIn_negative ι
  atoms_positive := mentions_of_operands rfl (by
    simpa using fun e he a ha => ⟨e, he, (hes e he).atoms_positive a ha⟩)
  atoms_negative := mentions_of_operands rfl (by
    simpa using fun e he a ha => ⟨e, he, (hes e he).atoms_negative a ha⟩)

variable {p q : Polar} {l r : Expression}

/-- Both normal forms of both operands are made of atoms of the operands. -/
theorem mentions_of_pair (hl : p.Represents l) (hr : q.Represents r) :
    ∀ f ∈ [p.positive, p.negative, q.positive, q.negative], ∀ a ∈ f.atoms,
      ∃ e ∈ [l, r], e.Mentions a := by
  simp only [List.forall_mem_cons, List.exists_mem_cons_iff, List.not_mem_nil, false_and,
    exists_false, or_false, IsEmpty.forall_iff, implies_true, and_true]
  exact ⟨fun a ha => Or.inl (hl.atoms_positive a ha), fun a ha => Or.inl (hl.atoms_negative a ha),
    fun a ha => Or.inr (hr.atoms_positive a ha), fun a ha => Or.inr (hr.atoms_negative a ha)⟩

theorem implies (hl : p.Represents l) (hr : q.Represents r) :
    Represents ⟨node .or [p.negative, q.positive], node .and [p.positive, q.negative]⟩
      (node .implies [l, r]) where
  positive_tree := .or (by simpa using ⟨hl.negative_tree, hr.positive_tree⟩)
  negative_tree := .and (by simpa using ⟨hl.positive_tree, hr.negative_tree⟩)
  truthIn_positive ι := by
    simp [hl.truthIn_negative, hr.truthIn_positive]
  truthIn_negative ι := by
    simp [hl.truthIn_positive, hr.truthIn_negative]
  atoms_positive := mentions_of_operands rfl fun f hf =>
    mentions_of_pair hl hr f (by grind)
  atoms_negative := mentions_of_operands rfl fun f hf =>
    mentions_of_pair hl hr f (by grind)

/-- The two halves of an equivalence are disjunctions over both operands. -/
theorem mentions_of_halves (hl : p.Represents l) (hr : q.Represents r) {a b c d : Expression}
    (hsub : [a, b, c, d] ⊆ [p.positive, p.negative, q.positive, q.negative]) :
    ∀ f ∈ (node .and [node .or [a, b], node .or [c, d]]).atoms,
      (node .equivalent [l, r]).Mentions f := by
  apply mentions_of_operands rfl
  have part : ∀ e ∈ [a, b, c, d], ∀ f ∈ e.atoms, ∃ g ∈ [l, r], g.Mentions f :=
    fun e he => mentions_of_pair hl hr e (hsub he)
  simp only [List.forall_mem_cons, List.not_mem_nil, IsEmpty.forall_iff, implies_true,
    and_true] at part
  obtain ⟨ha, hb, hc, hd⟩ := part
  simp only [List.forall_mem_cons, List.not_mem_nil, IsEmpty.forall_iff, implies_true, and_true,
    atoms_node, Symbol.isProper, Bool.false_eq_true, if_false, List.nil_append,
    List.flatMap_cons, List.flatMap_nil, List.append_nil, List.forall_mem_append]
  exact ⟨⟨ha, hb⟩, hc, hd⟩

theorem equivalent (hl : p.Represents l) (hr : q.Represents r) :
    Represents
      ⟨node .and [node .or [p.negative, q.positive], node .or [p.positive, q.negative]],
        node .and [node .or [p.negative, q.negative], node .or [p.positive, q.positive]]⟩
      (node .equivalent [l, r]) where
  positive_tree := .and (by
    simpa using ⟨.or (by simpa using ⟨hl.negative_tree, hr.positive_tree⟩),
      .or (by simpa using ⟨hl.positive_tree, hr.negative_tree⟩)⟩)
  negative_tree := .and (by
    simpa using ⟨.or (by simpa using ⟨hl.negative_tree, hr.negative_tree⟩),
      .or (by simpa using ⟨hl.positive_tree, hr.positive_tree⟩)⟩)
  truthIn_positive ι := by
    simp only [truthIn_and, truthIn_or, truthIn_equivalent, List.all_cons, List.all_nil,
      List.any_cons, List.any_nil, hl.truthIn_positive, hl.truthIn_negative,
      hr.truthIn_positive, hr.truthIn_negative]
    cases truthIn ι l <;> cases truthIn ι r <;> rfl
  truthIn_negative ι := by
    simp only [truthIn_and, truthIn_or, truthIn_equivalent, List.all_cons, List.all_nil,
      List.any_cons, List.any_nil, hl.truthIn_positive, hl.truthIn_negative,
      hr.truthIn_positive, hr.truthIn_negative]
    cases truthIn ι l <;> cases truthIn ι r <;> rfl
  atoms_positive := mentions_of_halves hl hr (by simp)
  atoms_negative := mentions_of_halves hl hr (by simp)

end Polar.Represents

/-- The fold computes the normal forms of every formula and of its negation. -/
theorem fold_polar_represents {e : Expression} (he : FormulaTree e) :
    (e.fold polar).Represents e := by
  induction he with
  | verum =>
      rw [fold_node]
      exact .verum
  | falsum =>
      rw [fold_node]
      exact .falsum
  | literal name positive =>
      rw [fold_node]
      exact .atom (.literal name positive)
  | compare c hl hr =>
      rw [fold_node]
      exact .atom (.compare c hl hr)
  | not he ih =>
      rw [fold_node]
      exact .not ih
  | and hes ih =>
      rw [fold_node]
      simpa [polar, Function.comp_def] using Polar.Represents.and ih
  | or hes ih =>
      rw [fold_node]
      simpa [polar, Function.comp_def] using Polar.Represents.or ih
  | implies hl hr ihl ihr =>
      rw [fold_node]
      exact .implies ihl ihr
  | equivalent hl hr ihl ihr =>
      rw [fold_node]
      exact .equivalent ihl ihr

theorem nnf_of_formula {e : Expression} (he : FormulaTree e) : e.nnf = (e.fold polar).positive :=
  he.settles.nnf_eq

theorem nnfTree_nnf {e : Expression} (he : FormulaTree e) : NnfTree e.nnf := by
  rw [nnf_of_formula he]
  exact (fold_polar_represents he).positive_tree

/-- A formula in negation normal form is its own. -/
theorem nnf_of_nnfTree {e : Expression} (he : NnfTree e) : e.nnf = e := by
  rw [nnf_of_formula he.formulaTree]
  induction he with
  | verum | falsum => rw [fold_node]; rfl
  | atom ha => cases ha <;> rw [fold_node] <;> rfl
  | @and es hes ih | @or es hes ih =>
      have operands : es.map (fun e => (e.fold polar).positive) = es :=
        (List.map_congr_left ih).trans (List.map_id' es)
      rw [fold_node]
      simpa [polar, Function.comp_def] using operands

theorem nnf_of_term {e : Expression} (he : TermTree e) : e.nnf = e := by
  rw [he.settles.nnf_eq]
  cases he <;> rw [fold_node] <;> rfl

theorem truthIn_nnf {e : Expression} (he : FormulaTree e) (ι : Interpretation) :
    truthIn ι e.nnf = truthIn ι e := by
  rw [nnf_of_formula he]
  exact (fold_polar_represents he).truthIn_positive ι

theorem mentions_nnf {e : Expression} (he : FormulaTree e) : ∀ a ∈ e.nnf.atoms, e.Mentions a := by
  rw [nnf_of_formula he]
  exact (fold_polar_represents he).atoms_positive

end Expression

end ClauseForm
