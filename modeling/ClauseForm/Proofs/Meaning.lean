import ClauseForm.Expression.Evaluation
import ClauseForm.Proofs.WellFormed
import Mathlib.Data.List.Fold

/-!
What expressions mean, by recursion on the tree.

An interpretation gives a value to every name, so the meaning is total.  `evaluate_eq` says that
evaluation finds the meaning of every well-formed expression whose variables all have a value of
their kind, and reports the variables without one otherwise.
-/

namespace ClauseForm

theorem all_congr_of_mem {α : Type} {p q : α → Bool} {as : List α}
    (h : ∀ a ∈ as, p a = q a) : as.all p = as.all q := by
  induction as with
  | nil => rfl
  | cons a as ih =>
      rw [List.all_cons, List.all_cons, h a List.mem_cons_self,
        ih fun b hb => h b (List.mem_cons_of_mem a hb)]

theorem any_congr_of_mem {α : Type} {p q : α → Bool} {as : List α}
    (h : ∀ a ∈ as, p a = q a) : as.any p = as.any q := by
  induction as with
  | nil => rfl
  | cons a as ih =>
      rw [List.any_cons, List.any_cons, h a List.mem_cons_self,
        ih fun b hb => h b (List.mem_cons_of_mem a hb)]

theorem mapM_eq_pure {m : Type → Type} [Monad m] [LawfulMonad m] {α β : Type} {f : α → m β}
    {g : α → β} (as : List α) (h : ∀ a ∈ as, f a = pure (g a)) :
    as.mapM f = pure (as.map g) := by
  induction as with
  | nil => simp
  | cons a as ih =>
      rw [List.mapM_cons, h a List.mem_cons_self,
        ih fun b hb => h b (List.mem_cons_of_mem a hb)]
      simp

/-- Values for all names, apart for the names of truth values and the names of integers. -/
structure Interpretation where
  truth : String → Bool
  integer : String → Int64

namespace Expression

section Semantics

variable (ι : Interpretation)

mutual

/-- The integer that a term stands for. -/
def integerIn : Expression → Int64
  | node (.unknown name) _ => ι.integer name
  | node (.constant value) _ => value
  | node .sum es => sumIn es
  | node .product es => productIn es
  | _ => 0

def sumIn : List Expression → Int64
  | [] => 0
  | e :: es => integerIn e + sumIn es

def productIn : List Expression → Int64
  | [] => 1
  | e :: es => integerIn e * productIn es

end

mutual

/-- The truth value that a formula stands for. -/
def truthIn : Expression → Bool
  | node .verum _ => true
  | node .falsum _ => false
  | node (.literal name positive) _ => ι.truth name == positive
  | node (.compare c) [l, r] => c.holds (integerIn ι l) (integerIn ι r)
  | node .not [e] => !truthIn e
  | node .and es => allIn es
  | node .or es => anyIn es
  | node .implies [l, r] => !truthIn l || truthIn r
  | node .equivalent [l, r] => truthIn l == truthIn r
  | _ => false

def allIn : List Expression → Bool
  | [] => true
  | e :: es => truthIn e && allIn es

def anyIn : List Expression → Bool
  | [] => false
  | e :: es => truthIn e || anyIn es

end

/-- The value that an expression stands for. -/
def meaning (e : Expression) : Value :=
  if e.isFormula then .truth (e.truthIn ι) else .integer (e.integerIn ι)

end Semantics

variable {ι κ : Interpretation}

@[simp]
theorem truthIn_not (e : Expression) : truthIn ι (node .not [e]) = !truthIn ι e := rfl

@[simp]
theorem truthIn_implies (l r : Expression) :
    truthIn ι (node .implies [l, r]) = (!truthIn ι l || truthIn ι r) := rfl

@[simp]
theorem truthIn_equivalent (l r : Expression) :
    truthIn ι (node .equivalent [l, r]) = (truthIn ι l == truthIn ι r) := rfl

@[simp]
theorem truthIn_compare (c : Comparison) (l r : Expression) :
    truthIn ι (node (.compare c) [l, r]) = c.holds (integerIn ι l) (integerIn ι r) := rfl

@[simp]
theorem truthIn_and (es : List Expression) :
    truthIn ι (node .and es) = es.all (truthIn ι) := by
  rw [truthIn]
  induction es with
  | nil => rfl
  | cons e es ih => rw [allIn, ih, List.all_cons]

@[simp]
theorem truthIn_or (es : List Expression) :
    truthIn ι (node .or es) = es.any (truthIn ι) := by
  rw [truthIn]
  induction es with
  | nil => rfl
  | cons e es ih => rw [anyIn, ih, List.any_cons]

@[simp]
theorem integerIn_sum (es : List Expression) :
    integerIn ι (node .sum es) = (es.map (integerIn ι)).foldr (· + ·) 0 := by
  rw [integerIn]
  induction es with
  | nil => rfl
  | cons e es ih => rw [sumIn, ih, List.map_cons, List.foldr_cons]

@[simp]
theorem integerIn_product (es : List Expression) :
    integerIn ι (node .product es) = (es.map (integerIn ι)).foldr (· * ·) 1 := by
  rw [integerIn]
  induction es with
  | nil => rfl
  | cons e es ih => rw [productIn, ih, List.map_cons, List.foldr_cons]

theorem meaning_of_formula {e : Expression} (he : FormulaTree e) :
    e.meaning ι = .truth (e.truthIn ι) := by
  rw [meaning, he.isFormula_eq]
  rfl

theorem meaning_of_term {e : Expression} (he : TermTree e) :
    e.meaning ι = .integer (e.integerIn ι) := by
  rw [meaning, he.isFormula_eq]
  rfl

theorem occurrences_node (s : Symbol) (es : List Expression) :
    (node s es).occurrences = s.occurrence?.toList ++ es.flatMap occurrences := by
  rw [occurrences, preOrder_node, List.filterMap_cons, List.filterMap_flatMap]
  change _ = s.occurrence?.toList ++ es.flatMap fun e =>
    e.preOrder.filterMap fun n => n.symbol.occurrence?
  cases h : s.occurrence? <;> simp [h]

theorem mem_vars {e : Expression} {x : Variable} : x ∈ e.vars ↔ x ∈ e.occurrences :=
  List.mem_eraseDups

theorem mem_occurrences_of_operand {s : Symbol} {es : List Expression} {e : Expression}
    {x : Variable} (he : e ∈ es) (hx : x ∈ e.occurrences) : x ∈ (node s es).occurrences := by
  rw [occurrences_node]
  exact List.mem_append_right _ (List.mem_flatMap.mpr ⟨e, he, hx⟩)

end Expression

/-- Two interpretations agree on a variable if they give it the same value. -/
def Interpretation.AgreeOn (ι κ : Interpretation) (x : Variable) : Prop :=
  match x.kind with
  | .truth => ι.truth x.name = κ.truth x.name
  | .integer => ι.integer x.name = κ.integer x.name

/-- The interpretation that gives the names the values that are bound to them, and `false` or zero
to names without a value of the right kind. -/
def Bindings.interpretation (v : Bindings) : Interpretation where
  truth name := ((v.get? name).bind Value.truth?).getD false
  integer name := ((v.get? name).bind Value.integer?).getD 0

theorem Bindings.faultOf?_truth_iff {v : Bindings} {name : String} :
    v.faultOf? ⟨name, .truth⟩ = none ↔
      v.get? name = some (.truth (v.interpretation.truth name)) := by
  unfold faultOf? interpretation
  cases h : v.get? name with
  | none => simp
  | some value => cases value <;> simp [h, Value.kind, Value.truth?]

theorem Bindings.faultOf?_integer_iff {v : Bindings} {name : String} :
    v.faultOf? ⟨name, .integer⟩ = none ↔
      v.get? name = some (.integer (v.interpretation.integer name)) := by
  unfold faultOf? interpretation
  cases h : v.get? name with
  | none => simp
  | some value => cases value <;> simp [h, Value.kind, Value.integer?]

namespace Expression

variable {ι κ : Interpretation}

/-- The value of a term depends on its variables only. -/
theorem integerIn_congr {e : Expression} (he : TermTree e)
    (hagree : ∀ x ∈ e.occurrences, ι.AgreeOn κ x) : e.integerIn ι = e.integerIn κ := by
  induction he with
  | unknown name => exact hagree ⟨name, .integer⟩ (by simp [occurrences_node, Symbol.occurrence?])
  | constant => rfl
  | @sum es hne hes ih | @product es hne hes ih =>
      have operands : es.map (integerIn ι) = es.map (integerIn κ) :=
        List.map_congr_left fun e he =>
          ih e he fun x hx => hagree x (mem_occurrences_of_operand he hx)
      simp only [integerIn_sum, integerIn_product, operands]

/-- The truth value of a formula depends on its variables only. -/
theorem truthIn_congr {e : Expression} (he : FormulaTree e)
    (hagree : ∀ x ∈ e.occurrences, ι.AgreeOn κ x) : e.truthIn ι = e.truthIn κ := by
  induction he with
  | verum | falsum => rfl
  | literal name positive =>
      have := hagree ⟨name, .truth⟩ (by simp [occurrences_node, Symbol.occurrence?])
      simpa only [truthIn] using congrArg (· == positive) this
  | compare c hl hr =>
      have left := integerIn_congr hl fun x hx =>
        hagree x (mem_occurrences_of_operand (by simp) hx)
      have right := integerIn_congr hr fun x hx =>
        hagree x (mem_occurrences_of_operand (by simp) hx)
      simp only [truthIn_compare, left, right]
  | not he ih =>
      have operand := ih fun x hx => hagree x (mem_occurrences_of_operand (by simp) hx)
      simp only [truthIn_not, operand]
  | @and es hes ih =>
      rw [truthIn_and, truthIn_and]
      exact all_congr_of_mem fun e he =>
        ih e he fun x hx => hagree x (mem_occurrences_of_operand he hx)
  | @or es hes ih =>
      rw [truthIn_or, truthIn_or]
      exact any_congr_of_mem fun e he =>
        ih e he fun x hx => hagree x (mem_occurrences_of_operand he hx)
  | implies hl hr ihl ihr | equivalent hl hr ihl ihr =>
      have left := ihl fun x hx => hagree x (mem_occurrences_of_operand (by simp) hx)
      have right := ihr fun x hx => hagree x (mem_occurrences_of_operand (by simp) hx)
      simp only [truthIn_implies, truthIn_equivalent, left, right]

theorem mapM_truth? (as : List Bool) : (as.map Value.truth).mapM Value.truth? = some as := by
  rw [List.mapM_map]
  simpa using mapM_eq_pure (f := Value.truth? ∘ Value.truth) (g := id) as fun a _ => rfl

theorem mapM_integer? (as : List Int64) :
    (as.map Value.integer).mapM Value.integer? = some as := by
  rw [List.mapM_map]
  simpa using mapM_eq_pure (f := Value.integer? ∘ Value.integer) (g := id) as fun a _ => rfl

theorem map_meaning_formulas {es : List Expression} (hes : ∀ e ∈ es, FormulaTree e) :
    es.map (meaning ι) = (es.map (truthIn ι)).map Value.truth := by
  rw [List.map_map]
  exact List.map_congr_left fun e he => meaning_of_formula (hes e he)

theorem map_meaning_terms {es : List Expression} (hes : ∀ e ∈ es, TermTree e) :
    es.map (meaning ι) = (es.map (integerIn ι)).map Value.integer := by
  rw [List.map_map]
  exact List.map_congr_left fun e he => meaning_of_term (hes e he)

/-- The meaning of a term comes from the meanings of its operands. -/
theorem nodeValue?_of_term {v : Bindings} {s : Symbol} {es : List Expression}
    (he : TermTree (node s es)) (hv : ∀ x, s.occurrence? = some x → v.faultOf? x = none) :
    nodeValue? v s (es.map (meaning v.interpretation)) =
      some (.integer ((node s es).integerIn v.interpretation)) := by
  cases he with
  | unknown name => exact Bindings.faultOf?_integer_iff.mp (hv _ rfl)
  | constant => rfl
  | sum hne hes =>
      rw [map_meaning_terms hes, integerIn_sum, ← List.foldl_eq_foldr]
      simp only [nodeValue?, Symbol.apply, mapM_integer?]
      obtain ⟨a, as, rfl⟩ := List.exists_cons_of_ne_nil hne
      rfl
  | product hne hes =>
      rw [map_meaning_terms hes, integerIn_product, ← List.foldl_eq_foldr]
      simp only [nodeValue?, Symbol.apply, mapM_integer?]
      obtain ⟨a, as, rfl⟩ := List.exists_cons_of_ne_nil hne
      rfl

/-- The meaning of a formula comes from the meanings of its operands. -/
theorem nodeValue?_of_formula {v : Bindings} {s : Symbol} {es : List Expression}
    (he : FormulaTree (node s es)) (hv : ∀ x, s.occurrence? = some x → v.faultOf? x = none) :
    nodeValue? v s (es.map (meaning v.interpretation)) =
      some (.truth ((node s es).truthIn v.interpretation)) := by
  cases he with
  | verum | falsum => rfl
  | literal name positive =>
      have hname := Bindings.faultOf?_truth_iff.mp (hv _ rfl)
      simp [nodeValue?, hname, Value.truth?, truthIn]
  | compare c hl hr =>
      rw [map_meaning_terms (by simpa using ⟨hl, hr⟩)]
      simp only [nodeValue?, Symbol.apply, mapM_integer?]
      rfl
  | not he =>
      rw [map_meaning_formulas (by simpa using he)]
      simp only [nodeValue?, Symbol.apply, mapM_truth?]
      rfl
  | and hes | or hes =>
      rw [map_meaning_formulas hes]
      simp only [nodeValue?, Symbol.apply, mapM_truth?, truthIn_and, truthIn_or]
      simp [Symbol.ofTruths]
  | implies hl hr | equivalent hl hr =>
      rw [map_meaning_formulas (by simpa using ⟨hl, hr⟩)]
      simp only [nodeValue?, Symbol.apply, mapM_truth?]
      rfl

theorem nodeValue?_eq_meaning {v : Bindings} {s : Symbol} {es : List Expression}
    (he : (node s es).WellFormed) (hv : ∀ x, s.occurrence? = some x → v.faultOf? x = none) :
    nodeValue? v s (es.map (meaning v.interpretation)) =
      some ((node s es).meaning v.interpretation) := by
  rcases he.formula_or_term with hformula | hterm
  · rw [meaning_of_formula hformula]
    exact nodeValue?_of_formula hformula hv
  · rw [meaning_of_term hterm]
    exact nodeValue?_of_term hterm hv

/-- What evaluation does at each node. -/
def visitValue (v : Bindings) (e : Expression) (operands : List Value) : Except Faults Value :=
  match nodeValue? v e.symbol operands with
  | some value => .ok value
  | none => .error (.single (.noValue e.symbol))

theorem foldM_visitValue {v : Bindings} {e : Expression} (he : e.WellFormed)
    (hv : ∀ x ∈ e.occurrences, v.faultOf? x = none) :
    foldM (visitValue v) e = pure (e.meaning v.interpretation) := by
  induction he with
  | @node s es hfit hes ih =>
      have operands : ∀ e ∈ es, foldM (visitValue v) e = pure (e.meaning v.interpretation) :=
        fun e he => ih e he fun x hx => hv x (mem_occurrences_of_operand he hx)
      have value := nodeValue?_eq_meaning (.node hfit hes) fun x hx =>
        hv x (by simp [occurrences_node, hx])
      rw [foldM_node, mapM_eq_pure es operands, pure_bind, visitValue, symbol_node, value]
      rfl

/-- Evaluation reports the variables without a value of their kind; if there are none, it finds the
meaning. -/
theorem evaluate_eq {e : Expression} (he : e.WellFormed) (v : Bindings) :
    e.evaluate v =
      Faults.barring (e.vars.filterMap v.faultOf?) (e.meaning v.interpretation) := by
  change (Faults.barring (e.vars.filterMap v.faultOf?) () >>= fun _ =>
    foldM (visitValue v) e) = _
  cases h : e.vars.filterMap v.faultOf? with
  | cons fault faults => rfl
  | nil =>
      have hv : ∀ x ∈ e.occurrences, v.faultOf? x = none := by
        intro x hx
        exact List.filterMap_eq_nil_iff.mp h x (mem_vars.mpr hx)
      exact foldM_visitValue he hv

theorem evaluate_eq_ok_iff {e : Expression} (he : e.WellFormed) {v : Bindings} {value : Value} :
    e.evaluate v = .ok value ↔
      (∀ x ∈ e.vars, v.faultOf? x = none) ∧ e.meaning v.interpretation = value := by
  rw [evaluate_eq he, Faults.barring_eq_ok_iff, List.filterMap_eq_nil_iff]

/-- A formula holds under bindings if its truth value is true under their interpretation. -/
theorem holds_eq_ok_iff {e : Expression} (he : FormulaTree e) {v : Bindings} {b : Bool} :
    e.holds v = .ok b ↔
      (∀ x ∈ e.vars, v.faultOf? x = none) ∧ e.truthIn v.interpretation = b := by
  rw [holds, evaluate_eq he.wellFormed, meaning_of_formula he, ← List.filterMap_eq_nil_iff]
  cases e.vars.filterMap v.faultOf? with
  | nil =>
      change (Except.ok (e.truthIn v.interpretation) : Except Faults Bool) = .ok b ↔ _
      simp
  | cons fault faults =>
      change (Except.error ⟨fault, faults⟩ : Except Faults Bool) = .ok b ↔ _
      simp

end Expression

end ClauseForm
