import ClauseForm.NormalForm.Negation
import ClauseForm.Proofs.WellFormed

/-!
Negation normal forms by recursion on the tree.

`polar` takes the normal forms of a formula and of its negation from those of its operands.  The
rewriting with stacks comes to the same.  Whatever is pending below the visit of an expression, the
visit leaves one result on top of those before it (`Settles`); so every connective that was announced
finds as many results as it takes, in the order of its operands, and nothing is ever missing.
-/

namespace ClauseForm

namespace Expression

/-- The negation normal forms of a formula and of its negation. -/
structure Polar where
  positive : Expression
  negative : Expression

/-- The normal forms of a node from those of its operands.  Terms stay as they are. -/
def polar (e : Expression) (ps : List Polar) : Polar :=
  match e.symbol, ps with
  | .not, [p] => ⟨p.negative, p.positive⟩
  | .and, ps => ⟨node .and (ps.map Polar.positive), node .or (ps.map Polar.negative)⟩
  | .or, ps => ⟨node .or (ps.map Polar.positive), node .and (ps.map Polar.negative)⟩
  | .implies, [l, r] => ⟨node .or [l.negative, r.positive], node .and [l.positive, r.negative]⟩
  | .equivalent, [l, r] =>
    ⟨node .and [node .or [l.negative, r.positive], node .or [l.positive, r.negative]],
      node .and [node .or [l.negative, r.negative], node .or [l.positive, r.positive]]⟩
  | _, _ => ⟨e, e.opposite⟩

/-- The normal form of an expression or of its negation, by recursion on the tree. -/
def rewritten (e : Expression) (positive : Bool) : Expression :=
  if positive then (e.fold polar).positive else (e.fold polar).negative

theorem rewritten_node (s : Symbol) (es : List Expression) (positive : Bool) :
    (node s es).rewritten positive =
      if positive then (polar (node s es) (es.map (fold polar))).positive
      else (polar (node s es) (es.map (fold polar))).negative := by
  rw [rewritten, fold_node]

theorem rewritten_junction {s : Symbol} (hs : s = .and ∨ s = .or) (es : List Expression)
    (positive : Bool) :
    (node s es).rewritten positive =
      node (junctor ((s == .and) == positive)) (es.map (·.rewritten positive)) := by
  rw [rewritten_node]
  rcases hs with rfl | rfl <;> cases positive <;>
    simp [polar, rewritten, junctor, Function.comp_def]

/-! ### Moves of the stacks -/

variable {e l r : Expression} {es : List Expression} {s : Symbol} {positive : Bool}
  {tasks pending : List Rewrite} {results : List Expression}

theorem rewriteFrom_of_result {result : Expression} (h : e.visit positive = .result result) :
    rewriteFrom (.visit e positive :: pending) results =
      rewriteFrom pending (result :: results) := by
  rw [rewriteFrom]
  split <;> simp_all

theorem rewriteFrom_of_announced (h : e.visit positive = .announced tasks) :
    rewriteFrom (.visit e positive :: pending) results =
      rewriteFrom (tasks ++ pending) results := by
  rw [rewriteFrom]
  split <;> simp_all

/-- A connective takes the last results, if there are as many as it was announced with. -/
theorem rewriteFrom_build (s : Symbol) (operands : List Expression) :
    rewriteFrom (.build s operands.length :: pending) (operands.reverse ++ results) =
      rewriteFrom pending (node s operands :: results) := by
  rw [rewriteFrom, Stacks.cut?_eq, ← List.length_reverse, if_pos (by simp), List.take_left,
    List.drop_left, List.reverse_reverse, List.append_nil]

theorem rewriteFrom_build_pair (s : Symbol) :
    rewriteFrom (.build s 2 :: pending) (r :: l :: results) =
      rewriteFrom pending (node s [l, r] :: results) :=
  rewriteFrom_build s [l, r]

/-! ### One result for each visit -/

/-- The visit of an expression, in both signs, comes to one result on top of those before it. -/
def Settles (e : Expression) : Prop :=
  ∀ positive pending results,
    rewriteFrom (.visit e positive :: pending) results =
      rewriteFrom pending (e.rewritten positive :: results)

theorem settles_operands (hes : ∀ e ∈ es, e.Settles) (positive : Bool) :
    rewriteFrom (es.map (.visit · positive) ++ pending) results =
      rewriteFrom pending ((es.map (·.rewritten positive)).reverse ++ results) := by
  induction es generalizing results with
  | nil => rfl
  | cons e es ih =>
      obtain ⟨he, hrest⟩ := List.forall_mem_cons.mp hes
      rw [List.map_cons, List.cons_append, he, ih hrest]
      simp

theorem settles_atom (hs : s.isAtom = true) : (node s es).Settles := by
  intro positive pending results
  have hvisit : (node s es).visit positive = .result ((node s es).rewritten positive) := by
    rw [rewritten_node]
    cases s <;> first | contradiction | rfl
  exact rewriteFrom_of_result hvisit

theorem TermTree.settles (he : TermTree e) : e.Settles := by
  intro positive pending results
  have hvisit : e.visit positive = .result (e.rewritten positive) := by
    cases he <;> rw [rewritten_node] <;> cases positive <;> rfl
  exact rewriteFrom_of_result hvisit

theorem settles_not (he : e.Settles) : (node .not [e]).Settles := by
  intro positive pending results
  have hform : (node .not [e]).rewritten positive = e.rewritten !positive := by
    rw [rewritten_node]
    cases positive <;> rfl
  have hvisit : (node .not [e]).visit positive = .announced [.visit e !positive] := rfl
  rw [rewriteFrom_of_announced hvisit, List.singleton_append, he, hform]

theorem settles_junction (hs : s = .and ∨ s = .or) (hes : ∀ e ∈ es, e.Settles) :
    (node s es).Settles := by
  intro positive pending results
  have hvisit : (node s es).visit positive = .announced (es.map (.visit · positive) ++
      [.build (junctor ((s == .and) == positive)) es.length]) := by
    rcases hs with rfl | rfl <;> rfl
  have hlength : es.length = (es.map (·.rewritten positive)).length := by rw [List.length_map]
  rw [rewriteFrom_of_announced hvisit, List.append_assoc, settles_operands hes,
    List.singleton_append, hlength, rewriteFrom_build, ← rewritten_junction hs]

theorem settles_implies (hl : l.Settles) (hr : r.Settles) : (node .implies [l, r]).Settles := by
  intro positive pending results
  have hform : (node .implies [l, r]).rewritten positive =
      node (junctor !positive) [l.rewritten !positive, r.rewritten positive] := by
    rw [rewritten_node]
    cases positive <;> rfl
  have hvisit : (node .implies [l, r]).visit positive = .announced
      [.visit l !positive, .visit r positive, .build (junctor !positive) 2] := rfl
  rw [rewriteFrom_of_announced hvisit]
  simp only [List.cons_append, List.nil_append]
  rw [hl, hr, rewriteFrom_build_pair, hform]

theorem settles_equivalent (hl : l.Settles) (hr : r.Settles) :
    (node .equivalent [l, r]).Settles := by
  intro positive pending results
  have hform : (node .equivalent [l, r]).rewritten positive =
      node .and [node .or [l.rewritten false, r.rewritten positive],
        node .or [l.rewritten true, r.rewritten !positive]] := by
    rw [rewritten_node]
    cases positive <;> rfl
  have hvisit : (node .equivalent [l, r]).visit positive = .announced
      [.visit l false, .visit r positive, .build .or 2, .visit l true, .visit r !positive,
        .build .or 2, .build .and 2] := rfl
  rw [rewriteFrom_of_announced hvisit]
  simp only [List.cons_append, List.nil_append]
  -- The first disjunction is built before the operands are visited again.
  rw [hl, hr, rewriteFrom_build_pair, hl, hr, rewriteFrom_build_pair, rewriteFrom_build_pair, hform]

theorem FormulaTree.settles (he : FormulaTree e) : e.Settles := by
  induction he with
  | verum | falsum | literal | compare => exact settles_atom rfl
  | not he ih => exact settles_not ih
  | and hes ih => exact settles_junction (Or.inl rfl) ih
  | or hes ih => exact settles_junction (Or.inr rfl) ih
  | implies hl hr ihl ihr => exact settles_implies ihl ihr
  | equivalent hl hr ihl ihr => exact settles_equivalent ihl ihr

/-! ### The normal form -/

theorem Settles.nnf?_eq (he : e.Settles) : e.nnf? = some (e.fold polar).positive := by
  rw [nnf?, he, rewriteFrom]
  rfl

theorem Settles.nnf_eq (he : e.Settles) : e.nnf = (e.fold polar).positive := by
  rw [nnf, he.nnf?_eq, Option.getD_some]

/-- A visit leaves the normal form of the expression or of its negation. -/
theorem Settles.rewriteFrom_eq (he : e.Settles) (pending : List Rewrite)
    (results : List Expression) :
    rewriteFrom (.visit e true :: pending) results = rewriteFrom pending (e.nnf :: results) ∧
      rewriteFrom (.visit e false :: pending) results =
        rewriteFrom pending ((node .not [e]).nnf :: results) := by
  have hnegated : (node .not [e]).nnf = (e.fold polar).negative := by
    rw [(settles_not he).nnf_eq, fold_node]
    rfl
  rw [he, he, he.nnf_eq, hnegated]
  exact ⟨rfl, rfl⟩

/-- The stacks always come to a result. -/
theorem nnf?_of_wellFormed (he : e.WellFormed) : e.nnf? = some e.nnf := by
  have hsettles : e.Settles := he.formula_or_term.elim FormulaTree.settles TermTree.settles
  rw [hsettles.nnf?_eq, hsettles.nnf_eq]

end Expression

end ClauseForm
