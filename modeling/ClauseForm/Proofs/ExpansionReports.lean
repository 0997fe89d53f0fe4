import ClauseForm.Proofs.Equivalence
import ClauseForm.Proofs.Supervisors

/-!
What an expansion reports.

The reports of an expansion follow the tree: those of the operands come first, then the visit of the
node, and then what the node does with the clauses of its operands.  `normalFormUnder_spec` says
that every supervisor hears these reports and no others, until it stops the expansion.
-/

namespace ClauseForm

namespace Expression

/-- The reports of a node in an expansion, from the clauses of its operands. -/
def nodeReports (form : NormalForm) (s : Symbol) (parts : List (List Clause)) : List Report :=
  .checkpoint ::
    match s with
    | .literal .. | .compare _ => [.clause 1]
    | .and | .or => if s == form.listSymbol then [] else Clause.productsReports parts
    | _ => []

mutual

/-- The reports of an expansion that starts with a table of atoms. -/
def expansionReports (form : NormalForm) : Expression → Atoms → List Report
  | node s es, t => operandReports form es t ++ nodeReports form s (expandAll form es t).1

/-- The reports for some formulas that are expanded one after the other. -/
def operandReports (form : NormalForm) : List Expression → Atoms → List Report
  | [], _ => []
  | e :: es, t => expansionReports form e t ++ operandReports form es (expand form e t).2

end

/-- The reports on the way to a normal form.  Nothing is reported where nothing is expanded. -/
def reports (form : NormalForm) (e : Expression) : List Report :=
  if e.isTerm || e.isClauseList form then []
  else expansionReports form (e.expansionBase form) .empty

variable {form : NormalForm} {e : Expression} {t : Atoms}

section Scripts

variable {m : Type → Type} [Monad m] [LawfulMonad m] (o : Observer m)

theorem scripted_nodeClauses (e : Expression) (parts : List (List Clause)) (t : Atoms) :
    o.Scripted ((nodeClauses form o e parts).run t) (nodeReports form e.symbol parts)
      (Id.run ((nodeClauses form (Observer.silent (m := Id)) e parts).run t)) := by
  have visited := (Observer.Scripted.tell (o := o) .checkpoint).lift t
  have product := (scripted_productOf o parts).lift t
  rw [← productOf_silent] at product
  have numbered : o.Scripted ((modifyGet fun atoms => atoms.literalOf e : StateT Atoms m Int).run t)
      [] (t.literalOf e) := .pure _
  obtain ⟨s, es⟩ := e
  cases s with
  | literal | compare =>
      have created := (Observer.Scripted.tell (o := o) (.clause 1)).lift t
      exact visited.bindState (created.bindState (numbered.bindState (.pure (_, _))))
  | and =>
      cases form with
      | cnf => exact visited.bindState (.pure (parts.flatten, t))
      | dnf => exact visited.bindState product
  | or =>
      cases form with
      | cnf => exact visited.bindState product
      | dnf => exact visited.bindState (.pure (parts.flatten, t))
  | _ => exact visited.bindState (.pure (_, t))

theorem scripted_operands {es : List Expression}
    (hes : ∀ e ∈ es, ∀ t, o.Scripted ((e.foldM (nodeClauses form o)).run t)
      (expansionReports form e t) (expand form e t)) (t : Atoms) :
    o.Scripted ((es.mapM (foldM (nodeClauses form o))).run t) (operandReports form es t)
      (expandAll form es t) := by
  induction es generalizing t with
  | nil => exact .pure ([], t)
  | cons e es ih =>
      have rest := ih (fun f hf => hes f (List.mem_cons_of_mem _ hf)) (expand form e t).2
      rw [List.mapM_cons, operandReports, expandAll_cons, ← List.append_nil (operandReports ..)]
      exact (hes e List.mem_cons_self t).bindState (rest.bindState (.pure (_, _)))

/-- An expansion makes the reports of its operands and then those of its node. -/
theorem scripted_expand (e : Expression) (t : Atoms) :
    o.Scripted ((e.foldM (nodeClauses form o)).run t) (expansionReports form e t)
      (expand form e t) := by
  match e with
  | node s es =>
      have operands := scripted_operands o (fun e (_ : e ∈ es) => scripted_expand e) t
      rw [foldM_node, expansionReports, expand_node]
      exact operands.bindState (scripted_nodeClauses o _ _ _)

theorem scripted_normalForm (form : NormalForm) (e : Expression) :
    o.Scripted (e.normalFormM form o) (e.reports form) (e.normalForm form) := by
  rw [normalForm_eq, normalFormM, reports]
  split
  · exact .pure e
  · rw [← List.append_nil (expansionReports ..)]
    exact (scripted_expand o (e.expansionBase form) .empty).bind (.pure _)

end Scripts

/-- Every visit of a node begins with a poll, and there are no other polls. -/
theorem count_nodeReports (s : Symbol) (parts : List (List Clause)) :
    (nodeReports form s parts).count .checkpoint = 1 := by
  have products := List.count_eq_zero.mpr (Clause.checkpoint_not_mem_productsReports parts)
  unfold nodeReports
  rw [List.count_cons_self, Nat.add_eq_right]
  cases s with
  | and | or => cases form <;> first | rfl | exact products
  | _ => rfl

theorem count_operandReports {es : List Expression}
    (hes : ∀ e ∈ es, ∀ t, (expansionReports form e t).count .checkpoint = e.nodeCount)
    (t : Atoms) :
    (operandReports form es t).count .checkpoint = (es.flatMap preOrder).length := by
  induction es generalizing t with
  | nil => rfl
  | cons e es ih =>
      rw [operandReports, List.count_append, hes e List.mem_cons_self,
        ih fun f hf => hes f (List.mem_cons_of_mem _ hf), List.flatMap_cons, List.length_append,
        nodeCount]

/-- An expansion is polled once at every node. -/
theorem count_expansionReports (form : NormalForm) (e : Expression) (t : Atoms) :
    (expansionReports form e t).count .checkpoint = e.nodeCount := by
  match e with
  | node s es =>
      rw [expansionReports, List.count_append, count_nodeReports,
        count_operandReports fun e (_ : e ∈ es) => count_expansionReports form e, nodeCount,
        preOrder_node, List.length_cons]

/-- The way to a normal form is polled once for every node that is expanded. -/
theorem count_reports (he : e.WellFormed) (h : (e.isTerm || e.isClauseList form) = false) :
    (e.reports form).count .checkpoint = e.nnf.nodeCount := by
  rw [reports, h, if_neg Bool.false_ne_true, count_expansionReports,
    nnf_expansionBase (he.formula_of_expanded h) (Bool.or_eq_false_iff.mp h).2]

/-- A supervised expansion is decided by how its reports are answered. -/
theorem normalFormUnder_of_start {σ : Type} {s : Supervisor σ} {state started : σ}
    (form : NormalForm) (e : Expression) (hstart : s.start state = .ok started) :
    e.normalFormUnder s state form =
      .ok ((s.hear (e.reports form) started).1.map fun _ => e.normalForm form,
        (s.hear (e.reports form) started).2) :=
  Supervisor.supervise_of_scripted hstart (scripted_normalForm s.observer form e)

/-- What a supervisor hears of the way to a normal form.  Every supervisor hears the same reports in
the same order, up to the first one that it does not answer well; if there is none, the result is
the normal form.  An expansion is polled once for every node of the negation normal form, and so a
supervisor that aborts after a number of polls cancels it if and only if there are more nodes. -/
theorem normalFormUnder_spec (form : NormalForm) (he : e.WellFormed) :
    (∀ {σ : Type} (s : Supervisor σ) (state started : σ), s.start state = .ok started →
      ∃ heard outcome, s.Hears started (e.reports form) heard outcome ∧
        e.normalFormUnder s state form =
          .ok (outcome.map fun _ => e.normalForm form, s.after heard started) ∧
        e.normalFormUnder s.recording (state, []) form =
          .ok (outcome.map fun _ => e.normalForm form, s.after heard started, heard)) ∧
      ((e.isTerm || e.isClauseList form) = true → e.reports form = []) ∧
      ((e.isTerm || e.isClauseList form) = false →
        (e.reports form).count .checkpoint = e.nnf.nodeCount ∧
          ∀ {σ : Type} (s : Supervisor σ) (state started : σ) (polls : Nat),
            s.start state = .ok started → s.AbortsAfter polls started →
              ∃ final, e.normalFormUnder s state form =
                .ok (if polls < e.nnf.nodeCount then .error .canceled
                  else .ok (e.normalForm form), final)) := by
  refine ⟨?_, fun hsame => if_pos hsame, fun hexpanded => ⟨count_reports he hexpanded, ?_⟩⟩
  · intro σ s state started hstart
    obtain ⟨heard, outcome, hplain, hrecorded, hhears⟩ :=
      s.hear_recording (e.reports form) started []
    refine ⟨heard, outcome, hhears, ?_, ?_⟩
    · rw [normalFormUnder_of_start form e hstart, hplain]
    · rw [normalFormUnder_of_start form e (Supervisor.start_recording hstart []), hrecorded]
      rfl
  · intro σ s state started polls hstart haborts
    refine ⟨(s.hear (e.reports form) started).2, ?_⟩
    rw [normalFormUnder_of_start form e hstart, haborts.hear_fst, count_reports he hexpanded]
    split <;> rfl

namespace ExpansionReportsWitness

/-- A disjunction that a conjunction is distributed over. -/
def sample : Expression :=
  node .or [node .and [literal "a" true, literal "b" true], literal "c" false]

/-- A tally with patience for four polls cancels the expansion, which takes five. -/
theorem normalFormUnder_spec_sample :
    sample.WellFormed ∧
      (sample.reports .cnf).count .checkpoint = 5 ∧
      (∃ final, sample.normalFormUnder Tally.supervisor (.new (some 4)) .cnf =
        .ok (.error .canceled, final)) ∧
      ∃ final, sample.normalFormUnder Tally.supervisor (.new (some 5)) .cnf =
        .ok (.ok (sample.normalForm .cnf), final) := by
  have hsample : sample.WellFormed := by decide +kernel
  have hcount : sample.nnf.nodeCount = 5 := by decide +kernel
  obtain ⟨-, -, hexpanded⟩ := normalFormUnder_spec .cnf hsample
  obtain ⟨hpolls, haborted⟩ := hexpanded (by decide +kernel)
  rw [hcount] at hpolls haborted
  exact ⟨hsample, hpolls,
    haborted Tally.supervisor (.new (some 4)) _ 4 rfl (Tally.abortsAfter rfl),
    haborted Tally.supervisor (.new (some 5)) _ 5 rfl (Tally.abortsAfter rfl)⟩

end ExpansionReportsWitness

end Expression

end ClauseForm
