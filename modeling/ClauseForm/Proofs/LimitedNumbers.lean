import ClauseForm.Proofs.AtomOrder
import ClauseForm.Proofs.Equivalence
import ClauseForm.Proofs.ExpansionReports
import ClauseForm.Proofs.Interning

/-!
Expanding with a limited supply of numbers.

There are only so many numbers for atoms, and what happens when they run out is not the business of
an expansion: it may be anything.  `normalFormM_of_few` says that it never happens to a formula with
fewer atoms than there are numbers, opposites counted once, so that nothing else is lost by numbering
atoms without a limit.
-/

namespace ClauseForm

namespace Atoms

theorem size_le_number (t : Atoms) (a : Expression) :
    t.atoms.size ≤ (t.number a).2.atoms.size := by
  unfold number
  split
  · exact Nat.le_refl _
  · exact (Nat.le_succ _).trans_eq (Array.size_push _).symm

theorem size_le_literalOf (t : Atoms) (a : Expression) :
    t.atoms.size ≤ (t.literalOf a).2.atoms.size := by
  unfold literalOf
  split
  · exact t.size_le_number a
  · exact t.size_le_number a.opposite

/-- There is a number left. -/
structure HasRoom (t : Atoms) : Prop where
  size_lt : t.atoms.size < largestIndex

theorem HasRoom.of_le {t u : Atoms} (hu : u.HasRoom) (hle : t.atoms.size ≤ u.atoms.size) :
    t.HasRoom :=
  ⟨Int.lt_of_le_of_lt (Int.ofNat_le.mpr hle) hu.size_lt⟩

end Atoms

namespace Expression

variable {form : NormalForm} {e : Expression}

/-! ### A table only grows -/

theorem size_le_nodeClauses (e : Expression) (parts : List (List Clause)) (t : Atoms) :
    t.atoms.size ≤
      (Id.run ((nodeClauses form (Observer.silent (m := Id)) e parts).run t)).2.atoms.size := by
  obtain ⟨s, es⟩ := e
  cases s with
  | literal | compare => exact t.size_le_literalOf _
  | and | or => cases form <;> exact Nat.le_refl _
  | _ => exact Nat.le_refl _

theorem size_le_expandAll {es : List Expression}
    (hes : ∀ e ∈ es, ∀ t : Atoms, t.atoms.size ≤ (expand form e t).2.atoms.size) (t : Atoms) :
    t.atoms.size ≤ (expandAll form es t).2.atoms.size := by
  induction es generalizing t with
  | nil => exact Nat.le_refl _
  | cons e es ih =>
      rw [expandAll_cons]
      exact (hes e List.mem_cons_self t).trans
        (ih (fun f hf => hes f (List.mem_cons_of_mem _ hf)) _)

theorem size_le_expand (form : NormalForm) (e : Expression) (t : Atoms) :
    t.atoms.size ≤ (expand form e t).2.atoms.size := by
  match e with
  | node s es =>
      rw [expand_node]
      exact (size_le_expandAll (fun e (_ : e ∈ es) => size_le_expand form e) t).trans
        (size_le_nodeClauses ..)

/-! ### Numbers that may run out -/

section Limited

variable {m : Type → Type} [Monad m]

/-- The literal that an atom got, or what is done when there was no number left. -/
def literalOr (full : AtomError → StateT Atoms m Int) :
    Except AtomError (Int × Atoms) → StateT Atoms m Int
  | .ok (literal, t) => do
    set t
    pure literal
  | .error error => full error

/-- The literal for an atom, with something else done when there is no number left. -/
def internOr (full : AtomError → StateT Atoms m Int) (e : Expression) : StateT Atoms m Int := do
  literalOr full ((← get).intern e)

/-- What an expansion does at a node, with something else done at atoms when there are no numbers
left. -/
def nodeClausesWithin (full : AtomError → StateT Atoms m Int) (form : NormalForm)
    (observer : Observer m) (e : Expression) (parts : List (List Clause)) :
    StateT Atoms m (List Clause) :=
  match e.symbol with
  | .literal .. | .compare _ => do
    observer.checkpoint
    observer.clause 1
    let literal ← internOr full e
    pure [Literals.arranged [literal]]
  | _ => nodeClauses form observer e parts

/-- The normal form of an expression, with something else done when there are no numbers left. -/
def normalFormWithinM (full : AtomError → StateT Atoms m Int) (form : NormalForm)
    (observer : Observer m) (e : Expression) : m Expression :=
  if e.isTerm || e.isClauseList form then pure e
  else do
    let (clauses, atoms) ←
      ((e.expansionBase form).foldM (nodeClausesWithin full form observer)).run .empty
    pure (ofClauses form atoms clauses)

variable (full : AtomError → StateT Atoms m Int) (o : Observer m)

theorem nodeClausesWithin_eq {e : Expression} (he : e.symbol.isProper = false) :
    nodeClausesWithin full form o e = nodeClauses form o e := by
  funext parts
  unfold nodeClausesWithin
  split
  · next hsymbol => simp [hsymbol, Symbol.isProper] at he
  · next hsymbol => simp [hsymbol, Symbol.isProper] at he
  · rfl

variable [LawfulMonad m]

theorem run_literalOr_ok (interned : Int × Atoms) (t : Atoms) :
    (literalOr full (.ok interned)).run t = pure interned := by
  simp [literalOr]

theorem run_internOr {e : Expression} {t : Atoms} (ht : t.HasRoom) :
    (internOr full e).run t = pure (t.literalOf e) := by
  rw [internOr, StateT.run_bind, StateT.run_get, pure_bind, Atoms.intern_eq_ok ht.size_lt,
    run_literalOr_ok]

theorem scripted_nodeClausesWithin (e : Expression) (parts : List (List Clause)) {t : Atoms}
    (hroom : (Id.run ((nodeClauses form (Observer.silent (m := Id)) e parts).run t)).2.HasRoom) :
    o.Scripted ((nodeClausesWithin full form o e parts).run t) (nodeReports form e.symbol parts)
      (Id.run ((nodeClauses form (Observer.silent (m := Id)) e parts).run t)) := by
  have visited := (Observer.Scripted.tell (o := o) .checkpoint).lift t
  have created := (Observer.Scripted.tell (o := o) (.clause 1)).lift t
  have numbered : o.Scripted ((internOr full e).run t) [] (t.literalOf e) := by
    rw [run_internOr full (hroom.of_le (size_le_nodeClauses e parts t))]
    exact .pure _
  clear hroom
  by_cases hatom : e.symbol.isProper = true
  · obtain ⟨s, es⟩ := e
    cases s with
    | literal | compare =>
        exact visited.bindState (created.bindState (numbered.bindState (.pure (_, _))))
    | _ => exact absurd hatom Bool.false_ne_true
  · rw [nodeClausesWithin_eq full o (Bool.eq_false_iff.mpr hatom)]
    exact scripted_nodeClauses o e parts t

theorem scripted_operandsWithin {es : List Expression}
    (hes : ∀ e ∈ es, ∀ t, (expand form e t).2.HasRoom →
      o.Scripted ((e.foldM (nodeClausesWithin full form o)).run t)
        (expansionReports form e t) (expand form e t)) {t : Atoms}
    (hroom : (expandAll form es t).2.HasRoom) :
    o.Scripted ((es.mapM (foldM (nodeClausesWithin full form o))).run t)
      (operandReports form es t) (expandAll form es t) := by
  induction es generalizing t with
  | nil => exact .pure ([], t)
  | cons e es ih =>
      rw [expandAll_cons] at hroom
      have rest := ih (fun f hf => hes f (List.mem_cons_of_mem _ hf)) hroom
      have first := hes e List.mem_cons_self t
        (hroom.of_le (size_le_expandAll (fun f _ => size_le_expand form f) _))
      rw [List.mapM_cons, operandReports, expandAll_cons, ← List.append_nil (operandReports ..)]
      exact first.bindState (rest.bindState (.pure (_, _)))

/-- As long as the table that an expansion ends with is not full, numbers have not run out. -/
theorem scripted_expandWithin (e : Expression) {t : Atoms}
    (hroom : (expand form e t).2.HasRoom) :
    o.Scripted ((e.foldM (nodeClausesWithin full form o)).run t) (expansionReports form e t)
      (expand form e t) := by
  match e with
  | node s es =>
      rw [expand_node] at hroom
      have operands := scripted_operandsWithin full o
        (fun e (_ : e ∈ es) t => scripted_expandWithin e)
        (hroom.of_le (size_le_nodeClauses (node s es) _ _))
      rw [foldM_node, expansionReports, expand_node]
      exact operands.bindState (scripted_nodeClausesWithin full o _ _ hroom)

/-- A formula with fewer atoms than there are numbers, opposites counted once, never runs out of
numbers, whatever would be done then. -/
theorem normalFormM_of_few (he : e.WellFormed)
    (hfew : ((e.nnf.atoms.map positiveForm).eraseDups.length : Int) < largestIndex) :
    e.normalFormWithinM full form o = e.normalFormM form o := by
  unfold normalFormWithinM normalFormM
  split
  · rfl
  · next h =>
      have hexpanded := Bool.eq_false_iff.mpr h
      have hformula := he.formula_of_expanded hexpanded
      have hlist := (Bool.or_eq_false_iff.mp hexpanded).2
      have hatoms : (expand form (e.expansionBase form) .empty).2.atoms.toList =
          (e.nnf.atoms.map positiveForm).eraseDups := by
        rw [toList_expand (nnfTree_expansionBase hformula hlist),
          ← nnf_expansionBase hformula hlist]
        rfl
      have hroom : (expand form (e.expansionBase form) .empty).2.HasRoom :=
        ⟨by rwa [← Array.length_toList, hatoms]⟩
      have hsame : ((e.expansionBase form).foldM (nodeClausesWithin full form o)).run .empty =
          ((e.expansionBase form).foldM (nodeClauses form o)).run .empty :=
        Eq.trans (scripted_expandWithin full o _ hroom) (Eq.symm (scripted_expand o _ .empty))
      rw [hsame, clauseListM, ← expansionBase]

end Limited

end Expression

end ClauseForm
