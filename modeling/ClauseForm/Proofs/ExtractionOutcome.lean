import ClauseForm.Proofs.Encoding
import ClauseForm.Proofs.NumberingHistory

/-!
Reading clauses off a formula of any shape.

A formula without the connective of a level is taken as a single clause or a single item, so every
formula falls into items.  `toClauses_spec` says that these decide alone whether clauses can be read
off, that all items that stand in the way are reported, and that the clauses have the truth value of
the formula.
-/

namespace ClauseForm

namespace Expression

variable {form : NormalForm} {m : Numbering} {e : Expression}

/-- Decides whether an item can stand in a clause: a constant, or a literal whose name has an
index. -/
def standsInClause (m : Numbering) (item : Expression) : Bool :=
  match item.symbol with
  | .verum | .falsum => true
  | .literal name _ => (m.indexOf? name).isSome
  | _ => false

/-- What is reported of an item that can not stand in a clause. -/
def clauseFault (item : Expression) : Fault :=
  match item.symbol with
  | .literal name _ => .unknownName name
  | s => .notInClause s

theorem itemFault?_eq (m : Numbering) (item : Expression) :
    item.itemFault? m = if item.standsInClause m then none else some item.clauseFault := by
  obtain ⟨s, es⟩ := item
  cases s with
  | literal name positive =>
      exact (Faults.ofResult?_map ..).trans (m.ofResult?_literalOf name positive)
  | _ => rfl

theorem filterMap_itemFault? (m : Numbering) (items : List Expression) :
    items.filterMap (itemFault? m) =
      (items.filter fun item => !item.standsInClause m).map clauseFault :=
  Faults.filterMap_eq_map_filter (itemFault?_eq m) items

theorem exists_toClauses_iff :
    (∃ clauses, e.toClauses form m = .ok clauses) ↔
      ∀ item ∈ e.items form, item.standsInClause m = true := by
  rw [toClauses_eq, filterMap_itemFault?]
  exact Faults.exists_barring_eq_ok_iff

/-- Clauses can be read off a formula exactly if each of its items is a constant or a literal whose
name has an index.  Otherwise there is one fault for every other item, in the order of the items,
also where a constant makes the clause superfluous.  What is read off has the truth value of the
formula wherever its variables have values. -/
theorem toClauses_spec (form : NormalForm) (hm : m.Valid) (he : e.WellFormed)
    (hformula : e.isFormula = true) :
    ((∃ clauses, e.toClauses form m = .ok clauses) ↔
        ∀ item ∈ e.items form, item.standsInClause m = true) ∧
      (∀ faults, e.toClauses form m = .error faults →
        faults.toList =
          ((e.items form).filter fun item => !item.standsInClause m).map clauseFault) ∧
      ∀ clauses, e.toClauses form m = .ok clauses →
        ∀ v : Bindings, (∀ x ∈ e.vars, v.faultOf? x = none) →
          e.holds v = .ok (form.reads (v.makesTrue m) clauses.toList) := by
  have tree : FormulaTree e := formulaTree_iff.mpr ⟨he, hformula⟩
  refine ⟨exists_toClauses_iff, ?_, ?_⟩
  · intro faults h
    rw [toClauses_eq, filterMap_itemFault?, Faults.barring_eq_error_iff] at h
    exact h.symm
  · intro clauses h v hv
    have hfaults := h
    rw [toClauses_eq, Faults.barring_eq_ok_iff] at hfaults
    have hagree := literalsAgree_of_faultless hm tree (fun x hx => hv x (mem_vars.mpr hx))
      hfaults.1
    exact (holds_eq_ok_iff tree).mpr ⟨hv, (reads_toClauses hagree h).symm⟩

namespace ExtractionWitness

/-- Two names, after another one was taken away. -/
def names : Numbering := .after [.ensure "a", .ensure "b", .erase "a", .ensure "c"]

theorem names_valid : names.Valid := (Numbering.remembers_after _).valid

/-- A disjunction of a literal and a clause with constants. -/
def sample : Expression :=
  node .or [literal "b" false, node .and [literal "c" true, node .verum []], node .falsum []]

/-- A superfluous clause with a name without an index, and a negation and a comparison outside of
it. -/
def faulty : Expression :=
  node .and [
    node .or [node .verum [], literal "a" true, literal "c" true],
    node .not [literal "b" true],
    node .or [node (.compare .less) [unknown "x", constant 1]]]

def values : Bindings := ⟨[("b", .truth true), ("c", .truth true)]⟩

theorem toClauses_spec_sample :
    (names.Valid ∧ sample.WellFormed ∧ sample.isFormula = true ∧ faulty.WellFormed ∧
        faulty.isFormula = true) ∧
      (∃ clauses, sample.toClauses .dnf names = .ok clauses ∧
        sample.holds values = .ok (NormalForm.dnf.reads (values.makesTrue names) clauses.toList)) ∧
      ∃ faults, faulty.toClauses .cnf names = .error faults ∧
        faults.toList = [.unknownName "a", .notInClause .not, .notInClause (.compare .less)] := by
  have hsample : sample.WellFormed := by decide +kernel
  have hfaulty : faulty.WellFormed := by decide +kernel
  obtain ⟨houtcome, -, hreads⟩ := toClauses_spec .dnf names_valid hsample rfl
  obtain ⟨hnone, hfaults, -⟩ := toClauses_spec .cnf names_valid hfaulty rfl
  obtain ⟨clauses, hclauses⟩ := houtcome.mpr (by decide +kernel)
  refine ⟨⟨names_valid, hsample, rfl, hfaulty, rfl⟩,
    ⟨clauses, hclauses, hreads clauses hclauses values (by decide +kernel)⟩, ?_⟩
  cases h : faulty.toClauses .cnf names with
  | ok clauses => exact absurd (hnone.mp ⟨clauses, h⟩) (by decide +kernel)
  | error faults => exact ⟨faults, rfl, (hfaults faults h).trans (by decide +kernel)⟩

end ExtractionWitness

end Expression

end ClauseForm
