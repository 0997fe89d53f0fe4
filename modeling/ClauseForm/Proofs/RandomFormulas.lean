import ClauseForm.Expression.PreOrder
import ClauseForm.Proofs.WellFormed
import ClauseForm.Random.Formula

/-!
What random formulas look like.

Whatever the shares are, and whichever thresholds they are compared with, each branch of the choice
draws an atom or a connective over formulas of less depth (`Config.Drawn`).  The only thing needed
of the source is that it keeps to the ranges.  `formula_spec` says what follows: a formula is always
drawn, and it is well-formed, of bounded depth, with the names and sizes of the configuration.
-/

namespace ClauseForm

/-- The symbols that make formulas of formulas. -/
def Symbol.isConnective : Symbol → Bool
  | .not | .and | .or | .implies | .equivalent => true
  | _ => false

/-- A way down from an expression, as far as it goes through connectives: how many it passes and
where it ends. -/
inductive Expression.LeadsTo : Expression → Nat → Expression → Prop where
  | stop {s : Symbol} {es : List Expression} :
      s.isConnective = false → LeadsTo (node s es) 0 (node s es)
  | bare {s : Symbol} : s.isConnective = true → LeadsTo (node s []) 1 (node s [])
  | through {s : Symbol} {es : List Expression} {e n : Expression} {k : Nat} :
      s.isConnective = true → e ∈ es → LeadsTo e k n → LeadsTo (node s es) (k + 1) n

/-- A connective can stand over as many formulas as it takes. -/
theorem Expression.misfit?_of_isConnective {s : Symbol} {es : List Expression} (hs : s.isConnective = true)
    (harity : s.arity.accepts es.length = true) (hes : ∀ e ∈ es, e.category = .formula) :
    misfit? s es = none := by
  refine misfit?_eq_none_iff.mpr ⟨harity, fun category h e he => ?_⟩
  rw [hes e he]
  cases s <;> first | exact Option.some.inj h | cases hs

namespace Random

/-! ### Samples that give what they should -/

section Gives

variable {σ α β : Type} {x : Sample σ α} {P Q : α → Prop}

/-- A sample is drawn from every state, and has a property. -/
def Gives (x : Sample σ α) (P : α → Prop) : Prop :=
  ∀ s, ∃ a t, x.run.run s = (.ok a, t) ∧ P a

theorem Gives.mono (h : Gives x P) (hPQ : ∀ a, P a → Q a) : Gives x Q := fun s => by
  obtain ⟨a, t, hrun, ha⟩ := h s
  exact ⟨a, t, hrun, hPQ a ha⟩

theorem gives_pure {a : α} (ha : P a) : Gives (pure a : Sample σ α) P := fun s => ⟨a, s, rfl, ha⟩

theorem Gives.bind {f : α → Sample σ β} {R : β → Prop} (h : Gives x P)
    (hf : ∀ a, P a → Gives (f a) R) : Gives (x >>= f) R := fun s => by
  obtain ⟨a, t, hrun, ha⟩ := h s
  obtain ⟨b, u, hrest, hb⟩ := hf a ha t
  refine ⟨b, u, ?_, hb⟩
  rw [ExceptT.run_bind, StateT.run_bind, hrun]
  exact hrest

/-- A value that is drawn from a source. -/
theorem gives_draw {x : StateM σ α} (h : ∀ s, P (x.run s).1) : Gives (liftM x : Sample σ α) P :=
  fun s => ⟨(x.run s).1, (x.run s).2, rfl, h s⟩

/-- A value that is drawn and of which nothing need be known. -/
theorem gives_draw_bind {x : StateM σ α} {f : α → Sample σ β} {R : β → Prop}
    (hf : ∀ a, Gives (f a) R) : Gives (liftM x >>= f) R :=
  (gives_draw (P := fun _ => True) fun _ => trivial).bind fun a _ => hf a

theorem gives_ite {c : Prop} [Decidable c] {y : Sample σ α} (hx : Gives x P) (hy : Gives y P) :
    Gives (if c then x else y) P := by
  split
  · exact hx
  · exact hy

/-- Several samples that are drawn one after the other. -/
theorem gives_operands {operand : Sample σ Expression} {P : Expression → Prop}
    (h : Gives operand P) (count : Nat) :
    Gives (Randomizer.operands count operand) fun es => es.length = count ∧ ∀ e ∈ es, P e := by
  induction count with
  | zero => exact gives_pure ⟨rfl, fun _ h => absurd h List.not_mem_nil⟩
  | succ count ih =>
      rw [Randomizer.operands, List.replicate_succ, List.mapM_cons]
      refine h.bind fun e he => ih.bind fun es hes => gives_pure ?_
      exact ⟨congrArg Nat.succ hes.1, List.forall_mem_cons.mpr ⟨he, hes.2⟩⟩

end Gives

/-! ### The formulas of a configuration -/

namespace Config

variable {c : Config} {d : Nat} {e n : Expression}

/-- An integer is no farther from zero than the largest constant. -/
def Within (c : Config) (value : Int64) : Prop :=
  value.toInt.natAbs ≤ c.maxConstant.toInt.natAbs

/-- The formulas without connectives: constants, literals and linear comparisons in one variable. -/
inductive IsAtom (c : Config) : Expression → Prop where
  | truth (b : Bool) : IsAtom c (.truth b)
  | literal {name : String} (hname : name ∈ c.names) (positive : Bool) :
      IsAtom c (.literal name positive)
  | comparison (comparison : Comparison) {name : String} (hname : name ∈ c.integerNames)
      {factor summand right : Int64} (hfactor : c.Within factor) (hsummand : c.Within summand)
      (hright : c.Within right) :
      IsAtom c (.node (.compare comparison)
        [.node .sum [.node .product [.constant factor, .unknown name], .constant summand],
          .constant right])

/-- The names at a node are those of the configuration, and a conjunction or disjunction has two
operands or more, fewer than its maximum. -/
structure Fits (c : Config) (n : Expression) : Prop where
  literal : ∀ name positive, n.symbol = .literal name positive → name ∈ c.names
  unknown : ∀ name, n.symbol = .unknown name → name ∈ c.integerNames
  and : n.symbol = .and →
    2 ≤ n.operands.length ∧ n.operands.length ≤ max c.maxAndOperands 3 - 1
  or : n.symbol = .or →
    2 ≤ n.operands.length ∧ n.operands.length ≤ max c.maxOrOperands 3 - 1

/-- The formulas with at most so many connectives above each other. -/
inductive Drawn (c : Config) : Nat → Expression → Prop where
  | atom {d : Nat} {e : Expression} : c.IsAtom e → Drawn c d e
  | connective {d : Nat} {s : Symbol} {es : List Expression} : s.isConnective = true → es ≠ [] →
      s.arity.accepts es.length = true → c.Fits (.node s es) → (∀ e ∈ es, Drawn c d e) →
      Drawn c (d + 1) (.node s es)

theorem IsAtom.formulaTree (h : c.IsAtom e) : e.FormulaTree := by
  cases h with
  | truth b => cases b <;> constructor
  | literal hname positive => exact .literal _ positive
  | comparison comparison hname hfactor hsummand hright =>
      refine .compare comparison (.sum (List.cons_ne_nil _ _) ?_) (.constant _)
      simp only [List.forall_mem_cons, List.not_mem_nil, false_implies, implies_true, and_true]
      refine ⟨.product (List.cons_ne_nil _ _) ?_, .constant _⟩
      simp only [List.forall_mem_cons, List.not_mem_nil, false_implies, implies_true, and_true]
      exact ⟨.constant _, .unknown _⟩

theorem IsAtom.isConnective_eq (h : c.IsAtom e) : e.symbol.isConnective = false := by
  cases h with
  | truth b => cases b <;> rfl
  | literal => rfl
  | comparison => rfl

theorem fits_of_symbol {s : Symbol} {es : List Expression}
    (hliteral : ∀ name positive, s ≠ .literal name positive) (hunknown : ∀ name, s ≠ .unknown name)
    (hand : s ≠ .and) (hor : s ≠ .or) : c.Fits (.node s es) where
  literal name positive h := absurd h (hliteral name positive)
  unknown name h := absurd h (hunknown name)
  and h := absurd h hand
  or h := absurd h hor

theorem IsAtom.fits (h : c.IsAtom e) : ∀ n ∈ e.preOrder, c.Fits n := by
  cases h with
  | truth b =>
      have hfits : c.Fits (.truth b) := by
        cases b <;> exact fits_of_symbol nofun nofun nofun nofun
      simpa [Expression.truth, Expression.preOrder_node] using hfits
  | literal hname positive =>
      rw [Expression.literal, Expression.preOrder_node, List.flatMap_nil,
        List.forall_mem_singleton]
      refine ⟨fun name b h => ?_, nofun, nofun, nofun⟩
      obtain ⟨rfl, rfl⟩ := Symbol.literal.inj h
      exact hname
  | @comparison comparison name hname factor summand right =>
      have hunknown : c.Fits (.unknown name) := by
        refine ⟨nofun, fun other h => ?_, nofun, nofun⟩
        obtain rfl := Symbol.unknown.inj h
        exact hname
      have hconstant : ∀ v, c.Fits (.constant v) := fun v =>
        fits_of_symbol nofun nofun nofun nofun
      have hother : ∀ s es, s = .compare comparison ∨ s = .sum ∨ s = .product →
          c.Fits (.node s es) := by
        rintro s es (rfl | rfl | rfl) <;> exact fits_of_symbol nofun nofun nofun nofun
      simp only [Expression.constant, Expression.unknown, Expression.preOrder_node,
        List.flatMap_cons, List.flatMap_nil, List.append_nil, List.cons_append, List.nil_append,
        List.forall_mem_cons]
      exact ⟨hother _ _ (by simp), hother _ _ (by simp), hother _ _ (by simp), hconstant factor,
        hunknown, hconstant summand, hconstant right, fun _ h => absurd h List.not_mem_nil⟩

theorem Drawn.category_eq (h : c.Drawn d e) : e.category = .formula := by
  cases h with
  | atom he => exact he.formulaTree.category_eq
  | @connective d s es hs => cases s <;> first | rfl | cases hs

theorem Drawn.wellFormed (h : c.Drawn d e) : e.WellFormed := by
  induction h with
  | atom he => exact he.formulaTree.wellFormed
  | @connective d s es hs hne harity hfits hes ih =>
      have hfit := Expression.misfit?_of_isConnective hs harity fun e he => (hes e he).category_eq
      exact .node hfit ih

theorem Drawn.fits (h : c.Drawn d e) : ∀ n ∈ e.preOrder, c.Fits n := by
  induction h with
  | atom he => exact he.fits
  | connective hs hne harity hfits hes ih =>
      rw [Expression.preOrder_node, List.forall_mem_cons]
      refine ⟨hfits, fun n hn => ?_⟩
      obtain ⟨e, he, hn⟩ := List.mem_flatMap.mp hn
      exact ih e he n hn

/-- Nothing but connectives leads any further. -/
theorem eq_of_leadsTo (he : e.symbol.isConnective = false) {k : Nat} (hn : e.LeadsTo k n) :
    k = 0 ∧ n = e := by
  cases hn with
  | stop => exact ⟨rfl, rfl⟩
  | bare hs | through hs =>
      rw [Expression.symbol_node, hs] at he
      contradiction

/-- A way down passes no more connectives than may stand above each other and ends in an atom. -/
theorem Drawn.leadsTo (h : c.Drawn d e) {k : Nat} (hn : e.LeadsTo k n) : k ≤ d ∧ c.IsAtom n := by
  induction h generalizing k with
  | atom he =>
      obtain ⟨rfl, rfl⟩ := eq_of_leadsTo he.isConnective_eq hn
      exact ⟨Nat.zero_le _, he⟩
  | connective hs hne harity hfits hes ih =>
      cases hn with
      | stop hs' =>
          rw [hs] at hs'
          contradiction
      | bare => contradiction
      | through _ he hn =>
          obtain ⟨hk, hatom⟩ := ih _ he hn
          exact ⟨Nat.succ_le_succ hk, hatom⟩

end Config

/-! ### What is drawn -/

/-- A configuration that formulas can be drawn from: there are names of both kinds, and the largest
constant has an absolute value. -/
structure Config.Usable (c : Config) : Prop where
  names : c.names ≠ []
  integerNames : c.integerNames ≠ []
  maxConstant : c.maxConstant ≠ Int64.minValue

section Samples

variable {σ α : Type} {r : Randomizer σ} {P : Expression → Prop} {operand : Sample σ Expression}
  {s : Symbol} {d : Nat}

theorem gives_choose {source : Source σ} (hsource : source.InRange) {items : List α}
    (hitems : items ≠ []) : Gives (source.choose items) (· ∈ items) := by
  rw [Source.choose, if_neg (by simpa using hitems)]
  have hposition : ∀ s, ((source.position items.length).run s).1 < items.length :=
    hsource.position_lt (List.length_pos_iff.mpr hitems)
  refine (gives_draw (P := fun i => i < items.length) hposition).bind fun i hi => ?_
  rw [List.getElem?_eq_getElem hi]
  exact gives_pure (List.getElem_mem hi)

/-- An expression that is possible is given. -/
theorem gives_expect {es : List Expression} (hfit : Expression.misfit? s es = none)
    (h : P (.node s es)) (expectation : String) :
    Gives (expect expectation (Expression.make? s es) : Sample σ Expression) P := by
  rw [Expression.make?, hfit]
  exact gives_pure h

theorem gives_constant : Gives r.constant r.config.IsAtom :=
  gives_draw_bind fun b => gives_pure (.truth b)

variable (hr : r.source.InRange) (hc : r.config.Usable)
include hr hc

theorem gives_literal : Gives r.literal r.config.IsAtom :=
  gives_draw_bind fun _ =>
    (gives_choose hr hc.names).bind fun _ hname => gives_pure (.literal hname _)

theorem gives_integer :
    Gives r.integer fun e => ∃ v, e = .constant v ∧ r.config.Within v := by
  rw [Randomizer.integer, if_neg hc.maxConstant]
  have haround := hr.natAbs_around_le r.config.maxConstant.toInt.natAbs
  refine (gives_draw (P := fun v => v.natAbs ≤ r.config.maxConstant.toInt.natAbs) haround).bind
    fun v hv => gives_pure ⟨_, rfl, ?_⟩
  have hlow := r.config.maxConstant.le_toInt
  have hhigh := r.config.maxConstant.toInt_lt
  have hmin : r.config.maxConstant.toInt ≠ -2 ^ 63 := fun h =>
    hc.maxConstant (Int64.toInt_inj.mp (h.trans Int64.toInt_minValue.symm))
  rw [Config.Within, Int64.toInt_ofInt_of_le (by omega) (by omega)]
  exact hv

theorem gives_comparison : Gives r.comparison r.config.IsAtom := by
  refine (gives_choose hr hc.integerNames).bind fun name hname => ?_
  refine (gives_choose hr (by decide)).bind fun comparison _ => ?_
  refine (gives_integer hr hc).bind ?_
  rintro _ ⟨factor, rfl, hfactor⟩
  refine Gives.bind (gives_expect rfl rfl _) ?_
  rintro _ rfl
  refine (gives_integer hr hc).bind ?_
  rintro _ ⟨summand, rfl, hsummand⟩
  refine Gives.bind (gives_expect rfl rfl _) ?_
  rintro _ rfl
  refine (gives_integer hr hc).bind ?_
  rintro _ ⟨right, rfl, hright⟩
  exact gives_expect rfl (.comparison comparison hname hfactor hsummand hright) _

theorem gives_atom : Gives r.atom r.config.IsAtom :=
  gives_draw_bind fun _ =>
    gives_ite gives_constant (gives_ite (gives_literal hr hc) (gives_comparison hr hc))

omit hr hc

/-- A connective over formulas that are drawn one after the other. -/
theorem gives_connective (hs : s.isConnective = true) {count : Nat} (hcount : count ≠ 0)
    (harity : s.arity.accepts count = true)
    (hfits : ∀ es : List Expression, es.length = count → r.config.Fits (.node s es))
    (h : Gives operand (r.config.Drawn d)) (expectation : String) :
    Gives (Randomizer.connective expectation s count operand) (r.config.Drawn (d + 1)) := by
  refine (gives_operands h count).bind ?_
  rintro es ⟨rfl, hes⟩
  have hne : es ≠ [] := mt List.length_eq_zero_iff.mpr hcount
  have hdrawn : r.config.Drawn (d + 1) (.node s es) := .connective hs hne harity (hfits es rfl) hes
  have hfit := Expression.misfit?_of_isConnective hs harity fun e he => (hes e he).category_eq
  exact gives_expect hfit hdrawn expectation

/-- Of one of the connectives that take a fixed number of operands, nothing is asked but that. -/
theorem gives_fixed {count : Nat} (hs : s = .not ∧ count = 1 ∨
      s = .implies ∧ count = 2 ∨ s = .equivalent ∧ count = 2)
    (h : Gives operand (r.config.Drawn d)) (expectation : String) :
    Gives (Randomizer.connective expectation s count operand) (r.config.Drawn (d + 1)) := by
  have hfits : ∀ es : List Expression, r.config.Fits (.node s es) := by
    rcases hs with ⟨rfl, rfl⟩ | ⟨rfl, rfl⟩ | ⟨rfl, rfl⟩ <;>
      exact fun es => Config.fits_of_symbol nofun nofun nofun nofun
  obtain ⟨hconnective, hcount, harity⟩ :
      s.isConnective = true ∧ count ≠ 0 ∧ s.arity.accepts count = true := by
    rcases hs with ⟨rfl, rfl⟩ | ⟨rfl, rfl⟩ | ⟨rfl, rfl⟩ <;> decide
  exact gives_connective hconnective hcount harity (fun es _ => hfits es) h expectation

/-- A conjunction or a disjunction has a number of operands that is drawn. -/
theorem gives_junction (hr : r.source.InRange) {maximum : Nat}
    (hs : s = .and ∧ maximum = r.config.maxAndOperands ∨
      s = .or ∧ maximum = r.config.maxOrOperands)
    (h : Gives operand (r.config.Drawn d)) (expectation : String) :
    Gives (r.junction expectation s maximum operand) (r.config.Drawn (d + 1)) := by
  have hrange : 2 < max maximum 3 := by omega
  have hcount : ∀ state, 2 ≤ ((r.source.between 2 (max maximum 3)).run state).1 ∧
      ((r.source.between 2 (max maximum 3)).run state).1 ≤ max maximum 3 - 1 := fun state =>
    ⟨hr.le_between hrange state, Nat.le_sub_one_of_lt (hr.between_lt hrange state)⟩
  refine (gives_draw (P := fun count => 2 ≤ count ∧ count ≤ max maximum 3 - 1) hcount).bind
    fun count hcount => ?_
  have hfits : ∀ es : List Expression, es.length = count → r.config.Fits (.node s es) := by
    rintro es rfl
    rcases hs with ⟨rfl, rfl⟩ | ⟨rfl, rfl⟩
    · exact ⟨nofun, nofun, fun _ => hcount, nofun⟩
    · exact ⟨nofun, nofun, nofun, fun _ => hcount⟩
  obtain ⟨hconnective, harity⟩ : s.isConnective = true ∧ s.arity = .atLeast 0 := by
    rcases hs with ⟨rfl, rfl⟩ | ⟨rfl, rfl⟩ <;> exact ⟨rfl, rfl⟩
  refine gives_connective hconnective (by omega) ?_ hfits h expectation
  rw [harity]
  exact decide_eq_true (Nat.zero_le count)

include hr hc

/-- Whichever branch is chosen, what is drawn has at most so many connectives above each other. -/
theorem gives_formula (d : Nat) : Gives (r.formula d) (r.config.Drawn d) := by
  have hatom : ∀ (d : Nat) {x : Sample σ Expression}, Gives x r.config.IsAtom →
      Gives x (r.config.Drawn d) := fun d x h => h.mono fun _ => .atom
  induction d with
  | zero => exact hatom 0 (gives_atom hr hc)
  | succ d ih =>
      refine gives_draw_bind fun x => ?_
      refine gives_ite (hatom _ gives_constant) ?_
      refine gives_ite (hatom _ (gives_literal hr hc)) ?_
      refine gives_ite (hatom _ (gives_comparison hr hc)) ?_
      refine gives_ite (gives_junction hr (Or.inr ⟨rfl, rfl⟩) ih _) ?_
      refine gives_ite (gives_junction hr (Or.inl ⟨rfl, rfl⟩) ih _) ?_
      refine gives_ite (gives_fixed (Or.inl ⟨rfl, rfl⟩) ih _) ?_
      exact gives_ite (gives_fixed (Or.inr (Or.inl ⟨rfl, rfl⟩)) ih _)
        (gives_fixed (Or.inr (Or.inr ⟨rfl, rfl⟩)) ih _)

end Samples

/-- From a source that keeps to the ranges, in any state, a formula can be drawn whatever the
weights and the sizes are.  It is well-formed, no way down passes more connectives than asked for,
and each ends in a constant, a literal or a linear comparison.  Its names are those of the
configuration, each of its kind, and its conjunctions and disjunctions have at least two operands and
fewer than the maximum. -/
theorem formula_spec {σ : Type} (r : Randomizer σ) (hr : r.source.InRange)
    (hnames : r.config.names ≠ []) (hintegerNames : r.config.integerNames ≠ [])
    (hmax : r.config.maxConstant ≠ Int64.minValue) (d : Nat) (s : σ) :
    ∃ e t, (r.formula d).run.run s = (.ok e, t) ∧ e.WellFormed ∧ e.isFormula = true ∧
      (∀ k n, e.LeadsTo k n → k ≤ d ∧ r.config.IsAtom n) ∧
      ∀ n ∈ e.preOrder, r.config.Fits n := by
  obtain ⟨e, t, hrun, hdrawn⟩ := gives_formula hr ⟨hnames, hintegerNames, hmax⟩ d s
  refine ⟨e, t, hrun, hdrawn.wellFormed, ?_, fun k n => hdrawn.leadsTo, hdrawn.fits⟩
  rw [Expression.isFormula, hdrawn.category_eq]
  rfl

namespace RandomWitness

/-- The usual weights over two names, with three operands or fewer. -/
def config : Config := { Config.ofNames ["a", "b"] with maxAndOperands := 4, maxOrOperands := 0 }

/-- That configuration with the generator. -/
def randomizer : Randomizer Generator := ⟨config, Generator.source⟩

theorem formula_spec_sample :
    randomizer.source.InRange ∧ config.names ≠ [] ∧ config.integerNames ≠ [] ∧
      config.maxConstant ≠ Int64.minValue ∧
      ∃ e t, (randomizer.formula 3).run.run ⟨42⟩ = (.ok e, t) ∧ e.WellFormed ∧
        (∀ k n, e.LeadsTo k n → k ≤ 3) ∧
        ∀ n ∈ e.preOrder, n.symbol = .or → n.operands.length = 2 := by
  have hnames : config.names ≠ [] := List.cons_ne_nil _ _
  have hintegerNames : config.integerNames ≠ [] := List.cons_ne_nil _ _
  have hmax : config.maxConstant ≠ Int64.minValue := by decide
  obtain ⟨e, t, hrun, hwell, -, hways, hfits⟩ :=
    formula_spec randomizer Generator.inRange_source hnames hintegerNames hmax 3 ⟨42⟩
  refine ⟨Generator.inRange_source, hnames, hintegerNames, hmax, e, t, hrun, hwell,
    fun k n h => (hways k n h).1, fun n hn hor => ?_⟩
  obtain ⟨hlow, hhigh⟩ := (hfits n hn).or hor
  exact Nat.le_antisymm hhigh hlow

end RandomWitness

end Random

end ClauseForm
