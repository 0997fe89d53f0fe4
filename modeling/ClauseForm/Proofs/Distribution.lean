import ClauseForm.Proofs.ChoiceProducts
import ClauseForm.Proofs.Equivalence
import ClauseForm.Proofs.Extraction
import ClauseForm.Proofs.Numbering

/-!
Two ways to distribute one connective over the other.

The dual of a list of clauses can be had from the list directly, or from the normal form of a formula
with the same literals.  `toClauses_normalForm_formula` says that both ways give the same clauses in
the same order.
-/

namespace ClauseForm

namespace Clauses

/-- The formula of a literal under the names of a numbering. -/
def literalFormula (m : Numbering) (l : Int) : Expression :=
  .literal ((m.nameOfLiteral? l).getD "") (decide (0 < l))

/-- The formula that a list of clauses stands for in a normal form, under the names of a numbering. -/
def formula (form : NormalForm) (m : Numbering) (l : Clauses) : Expression :=
  .node form.listSymbol (l.toList.map fun c =>
    .node form.clauseSymbol (c.toList.map (literalFormula m)))

end Clauses

namespace Expression

open Clauses

variable {form : NormalForm} {m : Numbering} {t : Atoms} {as : List Expression}

/-- Lists of literals over a later table that stand for lists of atoms. -/
structure Numbered (t u : Atoms) (lists : List (List Int)) (parts : List (List Expression)) :
    Prop where
  valid : u.Valid
  extends_old : u.Extends t
  knows : ∀ xs ∈ lists, ∀ x ∈ xs, u.Knows x
  atoms : lists.map (List.map u.atomOf) = parts

/-- Lists that are numbered one after another are numbered together. -/
theorem Numbered.cons {u w : Atoms} {xs : List Int} {lists : List (List Int)}
    {parts : List (List Expression)} (hfirst : Numbered t u [xs] [as])
    (hrest : Numbered u w lists parts) : Numbered t w (xs :: lists) (as :: parts) where
  valid := hrest.valid
  extends_old := hfirst.extends_old.trans hrest.extends_old
  knows := by
    have hknows := hfirst.knows xs List.mem_cons_self
    exact List.forall_mem_cons.mpr
      ⟨fun x hx => hrest.extends_old.knows (hknows x hx), hrest.knows⟩
  atoms := by
    have hknows := hfirst.knows xs List.mem_cons_self
    have hsame : xs.map w.atomOf = xs.map u.atomOf :=
      List.map_congr_left fun x hx => hrest.extends_old.atomOf_eq (hknows x hx)
    rw [List.map_cons, hrest.atoms, hsame, List.singleton_inj.mp hfirst.atoms]

/-- Atoms are expanded to the clauses of their literals. -/
theorem exists_expandAll_atoms (form : NormalForm) (ht : t.Valid) (has : ∀ a ∈ as, ProperAtom a) :
    ∃ xs : List Int, (expandAll form as t).1.flatten = units xs ∧
      Numbered t (expandAll form as t).2 [xs] [as] := by
  induction as generalizing t with
  | nil => exact ⟨[], rfl, ht, .refl t, by simp, rfl⟩
  | cons a as ih =>
      obtain ⟨ha, has⟩ := List.forall_mem_cons.mp has
      have hadds := Atoms.adds_literalOf ht ha
      rw [expandAll_cons, expand_atom ha]
      obtain ⟨xs, hclauses, hrest⟩ := ih hadds.valid has
      -- The table has grown over the rest, and it still knows the first literal.
      have hatoms := List.singleton_inj.mp hrest.atoms
      refine ⟨(t.literalOf a).1 :: xs, ?_, hrest.valid,
        hadds.extends_old.trans hrest.extends_old, ?_, ?_⟩
      · rw [List.flatten_cons, hclauses]
        rfl
      · have hknows := hrest.knows xs List.mem_cons_self
        simpa using ⟨hrest.extends_old.knows hadds.knows, hknows⟩
      · rw [List.map_singleton, List.map_cons, hatoms, hrest.extends_old.atomOf_eq hadds.knows,
          hadds.atomOf_eq]

/-- Clauses of the other form are expanded to lists of clauses of one literal each. -/
theorem exists_expandAll_nodes (form : NormalForm) {parts : List (List Expression)}
    (ht : t.Valid) (hparts : ∀ as ∈ parts, ∀ a ∈ as, ProperAtom a) :
    ∃ lists : List (List Int),
      (expandAll form (parts.map (node form.listSymbol)) t).1 = lists.map units ∧
        Numbered t (expandAll form (parts.map (node form.listSymbol)) t).2 lists parts := by
  induction parts generalizing t with
  | nil => exact ⟨[], rfl, ht, .refl t, by simp, rfl⟩
  | cons as parts ih =>
      obtain ⟨has, hparts⟩ := List.forall_mem_cons.mp hparts
      obtain ⟨xs, hxs, hfirst⟩ := exists_expandAll_atoms form ht has
      rw [List.map_cons, expandAll_cons, expand_listSymbol]
      obtain ⟨lists, hlists, hrest⟩ := ih hfirst.valid hparts
      refine ⟨xs :: lists, ?_, hfirst.cons hrest⟩
      rw [hxs, hlists, List.map_cons]

/-- A literal of a table whose atom has a literal under a numbering. -/
def Named (m : Numbering) (u : Atoms) (x : Int) : Prop :=
  u.Knows x ∧ ∃ name positive l, u.atomOf x = .literal name positive ∧
    m.literalOf name positive = .ok l

/-- The literal under a numbering for a literal of a table. -/
def literalOver (m : Numbering) (u : Atoms) (x : Int) : Int := ((u.atomOf x).literal? m).getD 0

theorem literal?_literal {name : String} {positive : Bool} {l : Int}
    (h : m.literalOf name positive = .ok l) : (literal name positive).literal? m = some l := by
  simp [literal?, itemLiteral, literal, h, Except.map, Except.toOption]

theorem literalOf_not {name : String} {positive : Bool} {l : Int}
    (h : m.literalOf name positive = .ok l) : m.literalOf name (!positive) = .ok (-l) := by
  rw [Numbering.literalOf] at h ⊢
  cases hindex : m.indexOf? name with
  | none =>
      rw [hindex] at h
      contradiction
  | some index =>
      rw [hindex] at h
      obtain rfl := Except.ok.inj h
      cases positive <;> simp

theorem literalOver_eq {u : Atoms} {x l : Int} {name : String} {positive : Bool}
    (hatom : u.atomOf x = literal name positive) (hl : m.literalOf name positive = .ok l) :
    literalOver m u x = l := by
  rw [literalOver, hatom, literal?_literal hl, Option.getD_some]

/-- Going from the literals of a table to those of a numbering keeps signs and differences. -/
theorem renumbers_literalOver (hm : m.Valid) {u : Atoms} (hu : u.Valid) :
    Renumbers (Named m u) (literalOver m u) where
  nonzero := fun x hx => hx.1.1
  neg_mem := by
    rintro x ⟨hknows, name, positive, l, hatom, hl⟩
    refine ⟨hknows.neg, name, !positive, -l, ?_, literalOf_not hl⟩
    rw [hu.atomOf_neg hknows, hatom]
    rfl
  map_neg := by
    rintro x ⟨hknows, name, positive, l, hatom, hl⟩
    have hopposite : u.atomOf (-x) = literal name !positive := by
      rw [hu.atomOf_neg hknows, hatom]
      rfl
    rw [literalOver_eq hatom hl, literalOver_eq hopposite (literalOf_not hl)]
  injective := by
    rintro x y ⟨hx, name, positive, l, hxatom, hl⟩ ⟨hy, other, sign, k, hyatom, hk⟩ hequal
    rw [literalOver_eq hxatom hl, literalOver_eq hyatom hk] at hequal
    subst hequal
    obtain ⟨hname, hpositive⟩ := hm.nameOfLiteral?_of_literalOf hl
    obtain ⟨hother, hsign⟩ := hm.nameOfLiteral?_of_literalOf hk
    rw [hname, Option.some.injEq] at hother
    rw [hpositive] at hsign
    exact hu.atomOf_injective hx hy (by rw [hxatom, hyatom, hother, hsign])

theorem Named.literal?_eq {u : Atoms} {x : Int} (hx : Named m u x) :
    (u.atomOf x).literal? m = some (literalOver m u x) := by
  obtain ⟨-, name, positive, l, hatom, hl⟩ := hx
  rw [literalOver_eq hatom hl, hatom, literal?_literal hl]

/-- An item with a literal has no fault, and it is no constant. -/
theorem accepted_of_literal? (form : NormalForm) {item : Expression} {l : Int}
    (h : item.literal? m = some l) :
    item.itemFault? m = none ∧ (item.symbol == form.vacuous) = false := by
  obtain ⟨name, positive, hsymbol, hl⟩ := literalOf_of_literal? h
  rw [itemFault?, itemLiteral, hsymbol]
  simp only [hl]
  cases form <;> exact ⟨rfl, rfl⟩

theorem itemParts_ofClause (form : NormalForm) (u : Atoms) (c : Clause) :
    (ofClause form u c).itemParts form =
      (c.toList.mergeSort fun a b => decide (a.natAbs ≤ b.natAbs)).map u.atomOf := by
  simp [itemParts, ofClause]

/-- The clause read off the formula of a clause. -/
theorem clauseOf?_ofClause {u : Atoms} {c : Clause} (hc : ∀ x ∈ c.toList, Named m u x) :
    (ofClause form u c).clauseOf? form m = some (renumbered (literalOver m u) c) := by
  have hsorted : ∀ x ∈ c.toList.mergeSort fun a b => decide (a.natAbs ≤ b.natAbs),
      Named m u x := fun x hx => hc x (List.mem_mergeSort.mp hx)
  have hkept : ((c.toList.mergeSort fun a b => decide (a.natAbs ≤ b.natAbs)).map u.atomOf).any
      (fun item => item.symbol == form.vacuous) = false := by
    rw [List.any_eq_false, List.forall_mem_map]
    intro x hx
    simp [(accepted_of_literal? form (hsorted x hx).literal?_eq).2]
  have hliterals : (c.toList.mergeSort fun a b => decide (a.natAbs ≤ b.natAbs)).filterMap
      (literal? m ∘ u.atomOf) =
        (c.toList.mergeSort fun a b => decide (a.natAbs ≤ b.natAbs)).map (literalOver m u) := by
    rw [← List.filterMap_eq_map]
    exact List.filterMap_congr fun x hx => (hsorted x hx).literal?_eq
  rw [clauseOf?, itemParts_ofClause, hkept, List.filterMap_map, hliterals]
  exact congrArg some (Clause.arranged_of_perm ((List.mergeSort_perm ..).map _))

theorem itemFaults_ofClause {u : Atoms} {c : Clause} (hc : ∀ x ∈ c.toList, Named m u x) :
    ((ofClause form u c).itemParts form).filterMap (itemFault? m) = [] := by
  rw [itemParts_ofClause, List.filterMap_eq_nil_iff, List.forall_mem_map]
  intro x hx
  exact (accepted_of_literal? form (hc x (List.mem_mergeSort.mp hx)).literal?_eq).1

/-- The clauses read off the formula of some clauses are these clauses in another numbering. -/
theorem toClauses_ofClauses {u : Atoms} {clauses : List Clause}
    (hclauses : ∀ c ∈ clauses, ∀ x ∈ c.toList, Named m u x)
    (hempty : clauses.any Literals.isEmpty = true → clauses = [Literals.empty]) :
    (ofClauses form u clauses).toClauses form m =
      .ok ⟨clauses.eraseDups.map (renumbered (literalOver m u))⟩ := by
  have hnode : ofClauses form u clauses =
      node form.listSymbol (clauses.eraseDups.map (ofClause form u)) := by
    rw [ofClauses_eq]
    split
    · next hany =>
        rw [hempty hany, eraseDups_eq_self (List.nodup_singleton _), List.map_singleton]
        simp [ofClause, Literals.empty, Literals.toList]
    · rfl
  have hparts : (node form.listSymbol (clauses.eraseDups.map (ofClause form u))).clauseParts form =
      clauses.eraseDups.map (ofClause form u) := by
    simp [clauseParts]
  have hmem : ∀ c ∈ clauses.eraseDups, ∀ x ∈ c.toList, Named m u x :=
    fun c hc => hclauses c (List.mem_eraseDups.mp hc)
  have hread : (clauses.eraseDups.map (ofClause form u)).filterMap (clauseOf? form m) =
      clauses.eraseDups.map (renumbered (literalOver m u)) := by
    rw [List.filterMap_map, ← List.filterMap_eq_map]
    exact List.filterMap_congr fun c hc => clauseOf?_ofClause (hmem c hc)
  rw [hnode, toClauses_eq, Faults.barring_eq_ok_iff, items, hparts, hread]
  refine ⟨?_, rfl⟩
  rw [List.filterMap_flatMap, List.flatMap_eq_nil_iff, List.forall_mem_map]
  exact fun c hc => itemFaults_ofClause (hmem c hc)

theorem exists_literalFormula_eq (hm : m.Valid) {l : Int} (hl : (m.nameOfLiteral? l).isSome) :
    ∃ name positive, literalFormula m l = literal name positive ∧
      m.literalOf name positive = .ok l := by
  obtain ⟨name, hname⟩ := Option.isSome_iff_exists.mp hl
  refine ⟨name, _, ?_, hm.literalOf_of_nameOfLiteral? hname⟩
  rw [literalFormula, hname, Option.getD_some]

/-- The literals of a table that stand for the clauses of a list are named, and under the numbering
they are the literals of the list. -/
theorem Numbered.named {l : Clauses} {lists : List (List Int)} {u : Atoms} (hm : m.Valid)
    (hl : ∀ c ∈ l.toList, ∀ x ∈ c.toList, (m.nameOfLiteral? x).isSome)
    (h : Numbered t u lists (l.toList.map fun c => c.toList.map (literalFormula m))) :
    (∀ xs ∈ lists, ∀ x ∈ xs, Named m u x) ∧
      lists.map (List.map (literalOver m u)) = l.toList.map Literals.toList := by
  constructor
  · intro xs hxs x hx
    have hpart : xs.map u.atomOf ∈ l.toList.map fun c => c.toList.map (literalFormula m) :=
      h.atoms ▸ List.mem_map_of_mem hxs
    obtain ⟨c, hc, hclause⟩ := List.mem_map.mp hpart
    have hatom : u.atomOf x ∈ c.toList.map (literalFormula m) :=
      hclause ▸ List.mem_map_of_mem hx
    obtain ⟨y, hy, hatom⟩ := List.mem_map.mp hatom
    obtain ⟨name, positive, hformula, hliteral⟩ := exists_literalFormula_eq hm (hl c hc y hy)
    exact ⟨h.knows xs hxs x hx, name, positive, y, hatom.symm.trans hformula, hliteral⟩
  · -- The literal depends on the atom alone, and the atoms are those of the list.
    have hatoms : lists.map (List.map (literalOver m u)) =
        (lists.map (List.map u.atomOf)).map (List.map fun atom => (atom.literal? m).getD 0) := by
      simp [Function.comp_def, literalOver]
    rw [hatoms, h.atoms, List.map_map]
    refine List.map_congr_left fun c hc => ?_
    rw [Function.comp_apply, List.map_map]
    refine (List.map_congr_left fun x hx => ?_).trans (List.map_id c.toList)
    obtain ⟨name, positive, hformula, hliteral⟩ := exists_literalFormula_eq hm (hl c hc x hx)
    rw [Function.comp_apply, hformula, literal?_literal hliteral, Option.getD_some, id]

theorem nnfTree_formula (form : NormalForm) (m : Numbering) (l : Clauses) :
    NnfTree (l.formula form m) := by
  have hatoms : ∀ c : Clause, ∀ e ∈ c.toList.map (literalFormula m), NnfTree e :=
    fun c => List.forall_mem_map.mpr fun x _ => .atom (.literal _ _)
  cases form with
  | cnf => exact .and (List.forall_mem_map.mpr fun c _ => .or (hatoms c))
  | dnf => exact .or (List.forall_mem_map.mpr fun c _ => .and (hatoms c))

/-- The formula of a list of clauses is multiplied out into the other normal form. -/
theorem normalForm_formula (form : NormalForm) (m : Numbering) (l : Clauses) :
    ∃ (u : Atoms) (lists : List (List Int)),
      (l.formula form m).normalForm form.dual =
        ofClauses form.dual u (Clause.products (lists.map units)) ∧
      Numbered .empty u lists (l.toList.map fun c => c.toList.map (literalFormula m)) := by
  have hterm : (l.formula form m).isTerm = false := by cases form <;> rfl
  have hlist : (l.formula form m).isClauseList form.dual = false := by cases form <;> rfl
  have hbase : (l.formula form m).expansionBase form.dual = l.formula form m := by
    rw [expansionBase, nnf_of_nnfTree (nnfTree_formula form m l), ite_self]
  have hnode : l.formula form m = node form.dual.clauseSymbol ((l.toList.map fun c =>
      c.toList.map (literalFormula m)).map (node form.dual.listSymbol)) := by
    rw [List.map_map]
    cases form <;> rfl
  have hatoms : ∀ as ∈ l.toList.map fun c => c.toList.map (literalFormula m),
      ∀ a ∈ as, ProperAtom a :=
    List.forall_mem_map.mpr fun c _ => List.forall_mem_map.mpr fun x _ => .literal _ _
  obtain ⟨lists, hlists, hnumbered⟩ := exists_expandAll_nodes form.dual Atoms.valid_empty hatoms
  refine ⟨_, lists, ?_, hnumbered⟩
  rw [normalForm_eq, hterm, hlist, hbase, hnode, expand_clauseSymbol, hlists]
  rfl

/-- Multiplying out the formula of a list of clauses gives the dual of the list: the same clauses in
the same order. -/
theorem toClauses_normalForm_formula (form : NormalForm) (hm : m.Valid) {l : Clauses}
    (hl : ∀ c ∈ l.toList, ∀ x ∈ c.toList, (m.nameOfLiteral? x).isSome) :
    ((l.formula form m).normalForm form.dual).toClauses form.dual m = .ok l.toDual := by
  obtain ⟨u, lists, hnormal, hnumbered⟩ := normalForm_formula form m l
  obtain ⟨hnamed, hliterals⟩ := hnumbered.named hm hl
  have hrenumbers := renumbers_literalOver hm hnumbered.valid
  have hproducts := Clause.forall_literals_products (forall_literals_units hnamed)
  have hclauses : (Clause.products (lists.map units)).eraseDups.map (renumbered (literalOver m u)) =
      l.toDual.toList := by
    rw [eraseDups_products_units, ← eraseDups_chosen_map hrenumbers hnamed, hliterals, toDual_eq]
  rw [hnormal, toClauses_ofClauses hproducts products_units_of_isEmpty, hclauses]

namespace DistributionWitness

/-- Two names whose indices leave gaps. -/
def names : Numbering := ⟨[(2, "a"), (5, "b")], 5⟩

/-- Two clauses with an opposed choice. -/
def sample : Clauses := ⟨[⟨#[-5, 2]⟩, ⟨#[5]⟩]⟩

theorem names_valid : names.Valid := by constructor <;> decide

theorem sample_named : ∀ c ∈ sample.toList, ∀ x ∈ c.toList, (names.nameOfLiteral? x).isSome := by
  decide

theorem opposed_choice : chosen? [-5, 5] = none :=
  Clause.reduced?_eq_none_iff.mpr ⟨5, by decide⟩

theorem kept_choice : chosen? [2, 5] = some ⟨#[2, 5]⟩ :=
  Clause.reduced?_eq_some_iff.mpr ⟨by simp [Clause.Opposed],
    by simp [Clause.Increasing, Literals.toList], by simp [Literals.toList]⟩

theorem toDual_sample : sample.toDual = ⟨[⟨#[2, 5]⟩]⟩ := by
  have hchoices : choices (sample.toList.map Literals.toList) = [[-5, 5], [2, 5]] := rfl
  have hdual := toDual_eq sample
  rw [hchoices, List.filterMap_cons_none opposed_choice, List.filterMap_cons_some kept_choice,
    List.filterMap_nil, eraseDups_eq_self (List.nodup_singleton _)] at hdual
  exact congrArg Clauses.mk hdual

/-- The choice of a name and its opposite is left out. -/
theorem toClauses_normalForm_formula_sample :
    (names.Valid ∧ ∀ c ∈ sample.toList, ∀ x ∈ c.toList, (names.nameOfLiteral? x).isSome) ∧
      ((sample.formula .cnf names).normalForm .dnf).toClauses .dnf names =
        .ok ⟨[⟨#[2, 5]⟩]⟩ := by
  rw [← toDual_sample]
  exact ⟨⟨names_valid, sample_named⟩,
    toClauses_normalForm_formula .cnf names_valid sample_named⟩

end DistributionWitness

end Expression

end ClauseForm
