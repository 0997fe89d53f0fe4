import ClauseForm.Proofs.Faults
import ClauseForm.Proofs.Readings
import Mathlib.Data.List.Permutation

/-!
A text that can be read means what its formula means if no name in it has a quotation mark.

Names are written as they are, so a quotation mark inside a name ends the name when the text is
read.  `evaluate_of_ofText_text` says that such a mark is the only thing that makes a text misread:
without one the text can be read, and what it is read as has the values and faults of the formula;
with one it may still be readable, but never as a formula with these values and faults.
-/

namespace ClauseForm

namespace Expression

variable {e g : Expression} {ι : Interpretation}

/-! ### Collapsing keeps the meaning -/

theorem occurrences_collapseNode (s : Symbol) (es : List Expression) :
    (collapseNode s es).occurrences = (node s es).occurrences := by
  unfold collapseNode
  split
  case h_7 => rfl
  case h_1 | h_2 => simp [truth, occurrences_node, Symbol.occurrence?]
  all_goals
    rw [occurrences_node, List.flatMap_singleton]
    rfl

theorem occurrences_collapse (e : Expression) : e.collapse.occurrences = e.occurrences := by
  match e with
  | node s es =>
      have operands : ∀ e ∈ es, e.collapse.occurrences = e.occurrences :=
        fun e he => occurrences_collapse e
      rw [collapse_node, occurrences_collapseNode, occurrences_node, occurrences_node,
        List.flatMap_map, List.flatMap_congr operands]

theorem integerIn_collapseNode {s : Symbol} (hs : s.category = .term) (es : List Expression) :
    (collapseNode s es).integerIn ι = (node s es).integerIn ι := by
  unfold collapseNode
  split
  case h_5 => simp
  case h_6 => simp
  case h_7 => rfl
  all_goals cases hs

theorem truthIn_collapseNode {s : Symbol} (hs : s.category = .formula) (es : List Expression) :
    (collapseNode s es).truthIn ι = (node s es).truthIn ι := by
  unfold collapseNode
  split
  case h_1 | h_2 => rfl
  case h_3 => simp
  case h_4 => simp
  case h_7 => rfl
  all_goals cases hs

theorem integerIn_collapse (he : TermTree e) : e.collapse.integerIn ι = e.integerIn ι := by
  induction he with
  | unknown | constant =>
      rw [collapse_node]
      rfl
  | sum hne hes ih | product hne hes ih =>
      rw [collapse_node, integerIn_collapseNode rfl]
      simp only [integerIn_sum, integerIn_product, List.map_map, Function.comp_def]
      rw [List.map_congr_left ih]

theorem truthIn_collapse (he : FormulaTree e) : e.collapse.truthIn ι = e.truthIn ι := by
  induction he with
  | verum | falsum | literal =>
      rw [collapse_node]
      rfl
  | compare c hl hr =>
      rw [collapse_node, truthIn_collapseNode rfl]
      simp [integerIn_collapse hl, integerIn_collapse hr]
  | not he ih =>
      rw [collapse_node, truthIn_collapseNode rfl]
      simp [ih]
  | and hes ih =>
      rw [collapse_node, truthIn_collapseNode rfl, truthIn_and, truthIn_and, List.all_map]
      exact all_congr_of_mem ih
  | or hes ih =>
      rw [collapse_node, truthIn_collapseNode rfl, truthIn_or, truthIn_or, List.any_map]
      exact any_congr_of_mem ih
  | implies hl hr ihl ihr | equivalent hl hr ihl ihr =>
      rw [collapse_node, truthIn_collapseNode rfl]
      simp [ihl, ihr]

/-- What is read from a text without quotation marks in names has the values and faults of the
formula that was written. -/
theorem evaluate_of_ofText_eq (he : e.WellFormed) (hformula : e.isFormula = true)
    (hquote : e.QuoteFree) (hread : ofText e.text = .ok g) (v : Bindings) :
    g.evaluate v = e.evaluate v := by
  have hg := regular_of_ofText hread
  obtain rfl : e.collapse = g :=
    Except.ok.inj ((ofText_eq_collapse he hformula hquote).symm.trans hread)
  have written : FormulaTree e := formulaTree_iff.mpr ⟨he, hformula⟩
  have reading : FormulaTree e.collapse := formulaTree_iff.mpr ⟨hg.wellFormed, hg.isFormula⟩
  have vars_eq : e.collapse.vars = e.vars := congrArg List.eraseDups (occurrences_collapse e)
  rw [evaluate_eq hg.wellFormed, evaluate_eq he, vars_eq, meaning_of_formula reading,
    meaning_of_formula written, truthIn_collapse written]

/-! ### Names with a quotation mark are lost -/

theorem filterMap_faultOf?_empty (xs : List Variable) :
    xs.filterMap Bindings.empty.faultOf? = xs.map fun x => .unassigned x.name := by
  rw [← List.filterMap_eq_map]
  rfl

/-- Under no bindings every name is reported, so evaluation tells the names. -/
theorem mem_names_of_evaluate_eq (he : e.WellFormed) (hg : g.WellFormed)
    (h : g.evaluate .empty = e.evaluate .empty) {name : String} (hname : name ∈ e.names) :
    name ∈ g.names := by
  rw [evaluate_eq hg, evaluate_eq he, filterMap_faultOf?_empty, filterMap_faultOf?_empty] at h
  have faults_eq := Faults.faults_eq_of_barring_eq h
  obtain ⟨x, hx, rfl⟩ := List.mem_map.mp (List.mem_eraseDups.mp hname)
  have hfault : Fault.unassigned x.name ∈ g.vars.map fun x => .unassigned x.name := by
    rw [faults_eq]
    exact List.mem_map_of_mem (mem_vars.mpr hx)
  obtain ⟨y, hy, hsame⟩ := List.mem_map.mp hfault
  rw [← Fault.unassigned.inj hsame]
  exact List.mem_eraseDups.mpr (List.mem_map_of_mem (mem_vars.mp hy))

/-- The text of a formula can be read if no name has a quotation mark.  If it can be read, then what
it is read as has the same values and faults as the formula exactly if no name has one. -/
theorem evaluate_of_ofText_text (he : e.WellFormed) (hformula : e.isFormula = true) :
    ((∀ name ∈ e.names, '\x22' ∉ name.toList) → ∃ g, ofText e.text = .ok g) ∧
      ∀ g, ofText e.text = .ok g →
        ((∀ v : Bindings, g.evaluate v = e.evaluate v) ↔
          ∀ name ∈ e.names, '\x22' ∉ name.toList) := by
  refine ⟨fun hquote => ⟨e.collapse, ofText_eq_collapse he hformula (quoteFree_iff.mpr hquote)⟩, ?_⟩
  intro g hread
  constructor
  · intro hsame name hname
    have hg := regular_of_ofText hread
    have quoteFree : g.QuoteFree := fun x hx => (hg.names x hx).2
    exact quoteFree_iff.mp quoteFree name
      (mem_names_of_evaluate_eq he hg.wellFormed (hsame .empty) hname)
  · intro hquote v
    exact evaluate_of_ofText_eq he hformula (quoteFree_iff.mpr hquote) hread v

namespace TextMeaningWitness

/-- A name whose text is that of a disjunction of two other names. -/
def quoted : Expression := literal "a\x22 | \x22b" true

/-- What the text of that name is read as. -/
def misread : Expression := node .or [literal "a" true, literal "b" true]

theorem ofText_quoted : ofText quoted.text = .ok misread := by
  have htext : quoted.text = "\x22a\x22 | \x22b\x22" := by decide +kernel
  rw [htext]
  cbv

/-- A negated conjunction of one name, which is written like the negated name. -/
def degenerate : Expression := node .not [node .and [literal "a b" true]]

theorem evaluate_of_ofText_text_sample :
    (quoted.WellFormed ∧ quoted.isFormula = true ∧
      ∃ g, ofText quoted.text = .ok g ∧ ¬ ∀ v : Bindings, g.evaluate v = quoted.evaluate v) ∧
    (degenerate.WellFormed ∧ degenerate.isFormula = true ∧
      ∃ g, ofText degenerate.text = .ok g ∧
        ∀ v : Bindings, g.evaluate v = degenerate.evaluate v) := by
  have hquoted : quoted.WellFormed := by decide +kernel
  have hdegenerate : degenerate.WellFormed := by decide +kernel
  refine ⟨⟨hquoted, rfl, ?_⟩, hdegenerate, rfl, ?_⟩
  · have hmark : ¬ ∀ name ∈ quoted.names, '\x22' ∉ name.toList := by decide +kernel
    have hsame := (evaluate_of_ofText_text hquoted rfl).2 misread ofText_quoted
    exact ⟨misread, ofText_quoted, fun h => hmark (hsame.mp h)⟩
  · have hquote : ∀ name ∈ degenerate.names, '\x22' ∉ name.toList := by decide +kernel
    obtain ⟨hreadable, hsame⟩ := evaluate_of_ofText_text hdegenerate rfl
    obtain ⟨g, hread⟩ := hreadable hquote
    exact ⟨g, hread, (hsame g hread).mpr hquote⟩

/-- A formula that is written as a text with another meaning: where the first of two names is true,
and the second name and the name that quotes both are false, the formula is false, but the
disjunction that its text is read as is true. -/
theorem ofText_text_misread :
    quoted.WellFormed ∧ quoted.isFormula = true ∧
      ∃ g, ofText quoted.text = .ok g ∧ ∃ v : Bindings, v.Valid ∧
        g.evaluate v = .ok (.truth true) ∧ quoted.evaluate v = .ok (.truth false) := by
  refine ⟨by decide +kernel, rfl, misread, ofText_quoted,
    ⟨[("a", .truth true), ("b", .truth false), ("a\x22 | \x22b", .truth false)]⟩, ?_, ?_, ?_⟩
  · simp [Bindings.Valid, Bindings.names]
  · decide +kernel
  · decide +kernel

end TextMeaningWitness

end Expression

end ClauseForm
