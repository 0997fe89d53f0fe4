import ClauseForm.Proofs.Faults
import ClauseForm.Proofs.FirstOccurrences
import ClauseForm.Proofs.Meaning

/-!
What comes of evaluating an expression under any values.

Whether there is a value is decided by the variables alone.  `evaluation_spec` says that each of
them needs a value of its kind, that all without one are reported in the order in which they first
occur, and that evaluation otherwise finds the meaning, so that it never gets stuck at a node.
-/

namespace ClauseForm

/-- The value that an interpretation gives to a variable. -/
def Interpretation.valueOf (ι : Interpretation) (x : Variable) : Value :=
  match x.kind with
  | .truth => .truth (ι.truth x.name)
  | .integer => .integer (ι.integer x.name)

namespace Bindings

variable {v : Bindings} {x : Variable} {name : String}

/-- Decides whether a variable has a value of its kind. -/
def gives (v : Bindings) (x : Variable) : Bool := (v.get? x.name).any (·.kind == x.kind)

/-- What is reported of a variable that has no value of its kind. -/
def variableFault (v : Bindings) (x : Variable) : Fault :=
  match v.get? x.name with
  | none => .unassigned x.name
  | some value => .mistyped x.name x.kind value.kind

theorem gives_iff :
    v.gives x = true ↔ ∃ value, v.get? x.name = some value ∧ value.kind = x.kind := by
  cases h : v.get? x.name <;> simp [gives, h]

theorem faultOf?_eq (v : Bindings) (x : Variable) :
    v.faultOf? x = if v.gives x then none else some (v.variableFault x) := by
  unfold faultOf? gives variableFault
  cases v.get? x.name <;> rfl

/-- Where a variable has a value of its kind, the interpretation gives it this value. -/
theorem get?_eq_valueOf (h : v.gives x = true) :
    v.get? x.name = some (v.interpretation.valueOf x) := by
  have hnone : v.faultOf? x = none := by rw [faultOf?_eq, if_pos h]
  obtain ⟨name, kind⟩ := x
  cases kind with
  | truth => exact faultOf?_truth_iff.mp hnone
  | integer => exact faultOf?_integer_iff.mp hnone

/-- No value is of both kinds. -/
theorem not_gives_both (htruth : v.gives ⟨name, .truth⟩ = true)
    (hinteger : v.gives ⟨name, .integer⟩ = true) : False := by
  obtain ⟨value, hvalue, hkind⟩ := gives_iff.mp htruth
  obtain ⟨other, hother, hkind'⟩ := gives_iff.mp hinteger
  obtain rfl : value = other := Option.some.inj (hvalue.symm.trans hother)
  rw [hkind] at hkind'
  contradiction

theorem variableFault_ne_noValue (v : Bindings) (x : Variable) (s : Symbol) :
    v.variableFault x ≠ .noValue s := by
  unfold variableFault
  cases v.get? x.name <;> simp

end Bindings

namespace Expression

variable {e : Expression} {v : Bindings} {faults : Faults} {value : Value}

/-- The faults of the variables that have no value of their kind. -/
def variableFaults (e : Expression) (v : Bindings) : List Fault :=
  (e.vars.filter fun x => !v.gives x).map v.variableFault

theorem evaluate_eq_barring (he : e.WellFormed) (v : Bindings) :
    e.evaluate v = Faults.barring (e.variableFaults v) (e.meaning v.interpretation) := by
  rw [evaluate_eq he, variableFaults, Faults.filterMap_eq_map_filter v.faultOf?_eq]

theorem exists_evaluate_iff (he : e.WellFormed) :
    (∃ value, e.evaluate v = .ok value) ↔ ∀ x ∈ e.vars, v.gives x = true := by
  rw [evaluate_eq_barring he]
  exact Faults.exists_barring_eq_ok_iff

theorem toList_of_evaluate_eq_error (he : e.WellFormed) (h : e.evaluate v = .error faults) :
    faults.toList = e.variableFaults v := by
  rw [evaluate_eq_barring he, Faults.barring_eq_error_iff] at h
  exact h.symm

theorem noValue_not_mem_variableFaults (e : Expression) (v : Bindings) (s : Symbol) :
    .noValue s ∉ e.variableFaults v := by
  intro hmem
  obtain ⟨x, -, hx⟩ := List.mem_map.mp hmem
  exact v.variableFault_ne_noValue x s hx

theorem kind_meaning (e : Expression) (ι : Interpretation) : (e.meaning ι).kind = e.valueKind := by
  unfold meaning isFormula valueKind
  cases e.category <;> rfl

/-- Whether an expression holds is found from its value, which is a truth value for formulas
only. -/
theorem holds_eq (he : e.WellFormed) (v : Bindings) :
    e.holds v = (Faults.barring (e.variableFaults v) () >>= fun _ =>
      if e.isFormula then .ok (e.truthIn v.interpretation)
      else .error (.single (.noValue e.symbol))) := by
  rw [holds, evaluate_eq_barring he, meaning]
  cases e.variableFaults v with
  | cons fault faults => rfl
  | nil => cases e.isFormula <;> rfl

theorem isTerm_eq_not_isFormula (e : Expression) : e.isTerm = !e.isFormula := by
  unfold isTerm isFormula
  cases e.category <;> rfl

/-- Deciding whether an expression holds gets stuck exactly at the root of a term that has a
value. -/
theorem holds_noValue_iff (he : e.WellFormed) {s : Symbol} :
    (∃ faults, e.holds v = .error faults ∧ .noValue s ∈ faults.toList) ↔
      e.isTerm = true ∧ (∃ value, e.evaluate v = .ok value) ∧ s = e.symbol := by
  rw [holds_eq he, evaluate_eq_barring he, isTerm_eq_not_isFormula]
  have hreported := noValue_not_mem_variableFaults e v s
  cases hfaults : e.variableFaults v with
  | cons fault others =>
      rw [hfaults] at hreported
      constructor
      · rintro ⟨faults, hbarred, hmem⟩
        obtain rfl := Except.error.inj hbarred
        exact absurd hmem hreported
      · rintro ⟨-, ⟨value, hbarred⟩, -⟩
        cases hbarred
  | nil =>
      constructor
      · rintro ⟨faults, hstuck, hmem⟩
        cases hformula : e.isFormula with
        | true =>
            rw [hformula] at hstuck
            cases hstuck
        | false =>
            rw [hformula] at hstuck
            obtain rfl := Except.error.inj hstuck
            have hsymbol : s = e.symbol := by simpa [Faults.single, Faults.toList] using hmem
            exact ⟨rfl, ⟨_, rfl⟩, hsymbol⟩
      · rintro ⟨hterm, -, rfl⟩
        have hformula : e.isFormula = false := by simpa using hterm
        rw [hformula]
        exact ⟨_, rfl, List.mem_cons_self⟩

/-- Evaluation finds the meaning of an expression exactly if every variable has a value of its kind,
and this is a truth value for a formula and an integer for a term.  Otherwise it reports one fault
for every other variable, in the order in which they first occur, so it fails wherever a name stands
for both kinds.  It never gets stuck at a node; deciding whether an expression holds does so for
terms that have a value, and for nothing else. -/
theorem evaluation_spec (he : e.WellFormed) (v : Bindings) :
    (e.vars.Nodup ∧ (∀ x, x ∈ e.vars ↔ ∃ n ∈ e.preOrder, n.symbol.occurrence? = some x) ∧
        e.vars.Pairwise fun x y => e.occurrences.idxOf x < e.occurrences.idxOf y) ∧
      ((∃ value, e.evaluate v = .ok value) ↔
        ∀ x ∈ e.vars, ∃ value, v.get? x.name = some value ∧ value.kind = x.kind) ∧
      (∀ value, e.evaluate v = .ok value →
        (∀ x ∈ e.vars, v.get? x.name = some (v.interpretation.valueOf x)) ∧
          value = e.meaning v.interpretation ∧ value.kind = e.valueKind) ∧
      (∀ faults, e.evaluate v = .error faults →
        faults.toList = (e.vars.filter fun x => !v.gives x).map v.variableFault) ∧
      (∀ name, ⟨name, .truth⟩ ∈ e.vars → ⟨name, .integer⟩ ∈ e.vars →
        ∃ faults, e.evaluate v = .error faults) ∧
      (∀ faults s, e.evaluate v = .error faults → .noValue s ∉ faults.toList) ∧
      ∀ s, (∃ faults, e.holds v = .error faults ∧ .noValue s ∈ faults.toList) ↔
        e.isTerm = true ∧ (∃ value, e.evaluate v = .ok value) ∧ s = e.symbol := by
  have hoccurs : ∀ x, x ∈ e.vars ↔ ∃ n ∈ e.preOrder, n.symbol.occurrence? = some x := fun x => by
    rw [mem_vars, occurrences, List.mem_filterMap]
  refine ⟨⟨nodup_eraseDups _, hoccurs, pairwise_idxOf_eraseDups _⟩, ?_, ?_, ?_, ?_, ?_, ?_⟩
  · rw [exists_evaluate_iff he]
    simp only [Bindings.gives_iff]
  · intro value hvalue
    have hgiven := (exists_evaluate_iff he).mp ⟨value, hvalue⟩
    rw [evaluate_eq_barring he, Faults.barring_eq_ok_iff] at hvalue
    obtain ⟨-, rfl⟩ := hvalue
    exact ⟨fun x hx => Bindings.get?_eq_valueOf (hgiven x hx), rfl, kind_meaning e _⟩
  · exact fun faults => toList_of_evaluate_eq_error he
  · intro name htruth hinteger
    cases houtcome : e.evaluate v with
    | error faults => exact ⟨faults, rfl⟩
    | ok value =>
        have hgiven := (exists_evaluate_iff he).mp ⟨value, houtcome⟩
        exact (Bindings.not_gives_both (hgiven _ htruth) (hgiven _ hinteger)).elim
  · intro faults s h
    rw [toList_of_evaluate_eq_error he h]
    exact noValue_not_mem_variableFaults e v s
  · exact fun s => holds_noValue_iff he

namespace EvaluationWitness

/-- A formula over two truth values and an integer, where the name of the first stands for an
integer as well. -/
def sample : Expression :=
  node .or [
    node .and [literal "b" true, literal "a" false, literal "b" false],
    node (.compare .less) [node .sum [unknown "x", constant 1], unknown "b"]]

/-- The sum of an unknown and a product. -/
def term : Expression := node .sum [unknown "x", node .product [constant 2, unknown "y"]]

def values : Bindings := ⟨[("x", .integer 5), ("a", .integer 0), ("b", .truth true)]⟩

/-- The values with one for the other unknown as well. -/
def completed : Bindings := (values.insert "y" (.integer 3)).2

theorem evaluation_spec_sample :
    (sample.WellFormed ∧ ∃ faults, sample.evaluate values = .error faults ∧
        faults.toList =
          [.mistyped "a" .truth .integer, .mistyped "b" .integer .truth]) ∧
      term.WellFormed ∧
        (∃ faults, term.evaluate values = .error faults ∧ faults.toList = [.unassigned "y"]) ∧
        ∃ faults, term.holds completed = .error faults ∧ .noValue .sum ∈ faults.toList := by
  have hsample : sample.WellFormed := by decide +kernel
  have hterm : term.WellFormed := by decide +kernel
  obtain ⟨-, -, -, hfaults, hboth, -⟩ := evaluation_spec hsample values
  obtain ⟨-, hgiven, -, hfaults', -⟩ := evaluation_spec hterm values
  obtain ⟨-, hcompleted, -, -, -, -, hstuck⟩ := evaluation_spec hterm completed
  obtain ⟨faults, hsampleError⟩ := hboth "b" (by decide +kernel) (by decide +kernel)
  refine ⟨⟨hsample, faults, hsampleError, (hfaults faults hsampleError).trans (by decide +kernel)⟩,
    hterm, ?_, (hstuck .sum).mpr ⟨rfl, hcompleted.mpr ?_, rfl⟩⟩
  · cases h : term.evaluate values with
    | ok value =>
        obtain ⟨other, hy, -⟩ := hgiven.mp ⟨value, h⟩ ⟨"y", .integer⟩ (by decide +kernel)
        have hnone : values.get? "y" = none := by decide +kernel
        rw [hnone] at hy
        contradiction
    | error faults => exact ⟨faults, rfl, (hfaults' faults h).trans (by decide +kernel)⟩
  · intro x hx
    have hall : ∀ x ∈ term.vars, completed.gives x = true := by decide +kernel
    exact Bindings.gives_iff.mp (hall x hx)

end EvaluationWitness

end Expression

end ClauseForm
