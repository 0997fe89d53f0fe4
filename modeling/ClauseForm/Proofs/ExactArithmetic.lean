import ClauseForm.Proofs.Meaning
import Mathlib.Algebra.BigOperators.Group.List.Basic
import Mathlib.Algebra.Ring.Int.Defs
import Mathlib.Logic.Relation

/-!
Terms in exact arithmetic.

Every sum and product wraps around at 64 bits.  `evaluate_exactIn` says that this is the same as
computing with integers of any size and reducing the result once, so that sums and products can be
reordered and regrouped at any depth.
-/

namespace ClauseForm

namespace Expression

section Exact

variable (ι : Interpretation)

mutual

/-- The integer that a term stands for if no sum and no product wraps around. -/
def exactIn : Expression → Int
  | node (.unknown name) _ => (ι.integer name).toInt
  | node (.constant value) _ => value.toInt
  | node .sum es => exactSumIn es
  | node .product es => exactProductIn es
  | _ => 0

def exactSumIn : List Expression → Int
  | [] => 0
  | e :: es => exactIn e + exactSumIn es

def exactProductIn : List Expression → Int
  | [] => 1
  | e :: es => exactIn e * exactProductIn es

end

end Exact

/-- One change to the operands of a sum or product somewhere in a term. -/
inductive Rearranges : Expression → Expression → Prop where
  | reorder {s : Symbol} {es fs : List Expression} :
      s = .sum ∨ s = .product → es.Perm fs → Rearranges (node s es) (node s fs)
  /-- A group of operands is dissolved. -/
  | regroup {s : Symbol} {bs : List Expression} (as cs : List Expression) :
      s = .sum ∨ s = .product → bs ≠ [] →
      Rearranges (node s (as ++ node s bs :: cs)) (node s (as ++ bs ++ cs))
  /-- A sum or product of a single operand is that operand. -/
  | unwrap {s : Symbol} {e : Expression} : s = .sum ∨ s = .product → Rearranges (node s [e]) e
  | operand {s : Symbol} {e f : Expression} (as cs : List Expression) :
      s = .sum ∨ s = .product → Rearranges e f →
      Rearranges (node s (as ++ e :: cs)) (node s (as ++ f :: cs))

/-- Two terms differ in the order and grouping of operands only. -/
def Rearranged : Expression → Expression → Prop := Relation.EqvGen Rearranges

variable {e f t : Expression} {s : Symbol} {es fs : List Expression} {ι : Interpretation}

@[simp]
theorem exactIn_sum (es : List Expression) :
    exactIn ι (node .sum es) = (es.map (exactIn ι)).sum := by
  rw [exactIn]
  induction es with
  | nil => rfl
  | cons e es ih => rw [exactSumIn, ih, List.map_cons, List.sum_cons]

@[simp]
theorem exactIn_product (es : List Expression) :
    exactIn ι (node .product es) = (es.map (exactIn ι)).prod := by
  rw [exactIn]
  induction es with
  | nil => rfl
  | cons e es ih => rw [exactProductIn, ih, List.map_cons, List.prod_cons]

/-! ### Wrapping around once -/

theorem ofInt_list_sum (is : List Int) :
    Int64.ofInt is.sum = (is.map Int64.ofInt).foldr (· + ·) 0 := by
  induction is with
  | nil => rfl
  | cons i is ih => rw [List.sum_cons, Int64.ofInt_add, ih, List.map_cons, List.foldr_cons]

theorem ofInt_list_prod (is : List Int) :
    Int64.ofInt is.prod = (is.map Int64.ofInt).foldr (· * ·) 1 := by
  induction is with
  | nil => rfl
  | cons i is ih => rw [List.prod_cons, Int64.ofInt_mul, ih, List.map_cons, List.foldr_cons]

/-- A term stands for its exact value, wrapped around. -/
theorem integerIn_eq_ofInt (ht : TermTree t) : t.integerIn ι = Int64.ofInt (t.exactIn ι) := by
  induction ht with
  | unknown | constant => rw [integerIn, exactIn, Int64.ofInt_toInt]
  | @sum es hne hes ih =>
      rw [integerIn_sum, exactIn_sum, ofInt_list_sum, List.map_map, List.map_congr_left ih]
      rfl
  | @product es hne hes ih =>
      rw [integerIn_product, exactIn_product, ofInt_list_prod, List.map_map, List.map_congr_left ih]
      rfl

/-! ### Rearranging operands -/

/-- What no single change affects is the same after any number of them. -/
theorem Rearranged.congr {β : Type} (h : Rearranged e f) (value : Expression → β)
    (hstep : ∀ e f, Rearranges e f → value e = value f) : value e = value f :=
  (eq_equivalence.comap value).eqvGen_iff.mp (h.mono hstep)

theorem exactIn_congr_operands (hs : s = .sum ∨ s = .product)
    (hsum : (es.map (exactIn ι)).sum = (fs.map (exactIn ι)).sum)
    (hprod : (es.map (exactIn ι)).prod = (fs.map (exactIn ι)).prod) :
    (node s es).exactIn ι = (node s fs).exactIn ι := by
  rcases hs with rfl | rfl
  · rw [exactIn_sum, exactIn_sum, hsum]
  · rw [exactIn_product, exactIn_product, hprod]

theorem Rearranges.exactIn_eq (h : Rearranges e f) : e.exactIn ι = f.exactIn ι := by
  induction h with
  | reorder hs hperm =>
      have hvalues := hperm.map (exactIn ι)
      exact exactIn_congr_operands hs hvalues.sum_eq hvalues.prod_eq
  | regroup _ _ hs _ => rcases hs with rfl | rfl <;> simp
  | unwrap hs => rcases hs with rfl | rfl <;> simp
  | operand _ _ hs _ ih => exact exactIn_congr_operands hs (by simp [ih]) (by simp [ih])

theorem termTree_node_iff (hs : s = .sum ∨ s = .product) :
    TermTree (node s es) ↔ es ≠ [] ∧ ∀ e ∈ es, TermTree e := by
  constructor
  · intro h
    rcases hs with rfl | rfl
    · cases h with
      | sum hne hes => exact ⟨hne, hes⟩
    · cases h with
      | product hne hes => exact ⟨hne, hes⟩
  · rintro ⟨hne, hes⟩
    rcases hs with rfl | rfl
    · exact .sum hne hes
    · exact .product hne hes

theorem Rearranges.termTree_iff (h : Rearranges e f) : TermTree e ↔ TermTree f := by
  induction h with
  | @reorder s es fs hs hperm =>
      have hempty : es = [] ↔ fs = [] := by
        rw [← List.length_eq_zero_iff, hperm.length_eq, List.length_eq_zero_iff]
      rw [termTree_node_iff hs, termTree_node_iff hs]
      simp only [Ne, hempty, hperm.mem_iff]
  | regroup _ _ hs hne =>
      rw [termTree_node_iff hs, termTree_node_iff hs]
      simp only [List.forall_mem_append, List.forall_mem_cons, termTree_node_iff hs]
      simp [hne, and_assoc]
  | unwrap hs => simp [termTree_node_iff hs]
  | operand _ _ hs _ ih =>
      rw [termTree_node_iff hs, termTree_node_iff hs]
      simp [or_imp, forall_and, ih]

theorem Rearranges.mem_occurrences_iff (h : Rearranges e f) (x : Variable) :
    x ∈ e.occurrences ↔ x ∈ f.occurrences := by
  have hnone : ∀ {s : Symbol}, s = .sum ∨ s = .product → s.occurrence? = none := by
    rintro _ (rfl | rfl) <;> rfl
  induction h with
  | reorder hs hperm => simp [occurrences_node, hnone hs, hperm.mem_iff]
  | regroup _ _ hs => simp [occurrences_node, hnone hs]
  | unwrap hs => simp [occurrences_node, hnone hs]
  | operand _ _ hs _ ih => simp [occurrences_node, hnone hs, ih]

/-! ### Evaluating terms -/

theorem kind_of_mem_occurrences (ht : TermTree t) {x : Variable} (hx : x ∈ t.occurrences) :
    x.kind = .integer := by
  induction ht with
  | unknown name =>
      obtain rfl : x = ⟨name, .integer⟩ := by simpa [occurrences_node, Symbol.occurrence?] using hx
      rfl
  | constant => simp [occurrences_node, Symbol.occurrence?] at hx
  | sum _ _ ih | product _ _ ih =>
      rw [occurrences_node] at hx
      obtain ⟨e, he, hx⟩ := List.mem_flatMap.mp hx
      exact ih e he hx

/-- A term whose variables all have integers evaluates to its exact value, wrapped around. -/
theorem evaluate_term (ht : TermTree t) {v : Bindings}
    (hv : ∀ x ∈ t.occurrences, ∃ i, v.get? x.name = some (.integer i)) :
    t.evaluate v = .ok (.integer (Int64.ofInt (t.exactIn v.interpretation))) := by
  rw [evaluate_eq_ok_iff ht.wellFormed, meaning_of_term ht, integerIn_eq_ofInt ht]
  refine ⟨fun x hx => ?_, rfl⟩
  obtain ⟨i, hi⟩ := hv x (mem_vars.mp hx)
  simp [Bindings.faultOf?, hi, kind_of_mem_occurrences ht (mem_vars.mp hx), Value.kind]

/-- A term whose variables all have integers evaluates to what it amounts to in exact arithmetic,
reduced once to 64 bits, and to the same if its operands are reordered and regrouped at any
depth. -/
theorem evaluate_exactIn (ht : t.WellFormed) (hterm : t.isTerm = true) {v : Bindings}
    (hv : ∀ x ∈ t.vars, ∃ i, v.get? x.name = some (.integer i)) :
    (∃ value, t.evaluate v = .ok (.integer value) ∧
        value.toInt = (t.exactIn v.interpretation).bmod (2 ^ 64)) ∧
      ∀ u, Rearranged t u → u.evaluate v = t.evaluate v := by
  have tree : TermTree t := termTree_iff.mpr ⟨ht, hterm⟩
  have hgiven : ∀ x ∈ t.occurrences, ∃ i, v.get? x.name = some (.integer i) := fun x hx =>
    hv x (mem_vars.mpr hx)
  refine ⟨⟨_, evaluate_term tree hgiven, Int64.toInt_ofInt⟩, fun u hu => ?_⟩
  have other : TermTree u := by
    rw [← hu.congr TermTree fun _ _ h => propext h.termTree_iff]
    exact tree
  have hgiven' : ∀ x ∈ u.occurrences, ∃ i, v.get? x.name = some (.integer i) := by
    intro x hx
    have hoccurs := hu.congr (x ∈ ·.occurrences) fun _ _ h => propext (h.mem_occurrences_iff x)
    exact hgiven x (hoccurs ▸ hx)
  rw [evaluate_term tree hgiven, evaluate_term other hgiven',
    hu.congr (exactIn v.interpretation) fun _ _ h => h.exactIn_eq]

namespace ExactArithmeticWitness

/-- A sum with a product that overflows many times. -/
def sample : Expression :=
  node .sum [
    unknown "x",
    node .sum [
      node .product [unknown "y", node .sum [constant 3, unknown "x"]],
      constant (-7)]]

/-- The same without the inner sum, and with the factors the other way round. -/
def other : Expression :=
  node .sum [
    unknown "x",
    node .product [node .sum [constant 3, unknown "x"], unknown "y"],
    constant (-7)]

def values : Bindings :=
  ⟨[("x", .integer 4611686018427387904), ("y", .integer 4611686018427387904)]⟩

theorem rearranged_sample : Rearranged sample other := by
  have hflat : Rearranges sample (node .sum [unknown "x",
      node .product [unknown "y", node .sum [constant 3, unknown "x"]], constant (-7)]) :=
    .regroup [unknown "x"] [] (Or.inl rfl) (by simp)
  have hswapped : Rearranges (node .sum [unknown "x",
      node .product [unknown "y", node .sum [constant 3, unknown "x"]], constant (-7)]) other :=
    .operand [unknown "x"] [constant (-7)] (Or.inl rfl)
      (.reorder (Or.inr rfl) (.swap _ _ _))
  exact .trans _ _ _ (.rel _ _ hflat) (.rel _ _ hswapped)

theorem evaluate_exactIn_sample :
    sample.WellFormed ∧ sample.isTerm = true ∧
      (∀ x ∈ sample.vars, ∃ i, values.get? x.name = some (.integer i)) ∧
      (∃ value, sample.evaluate values = .ok (.integer value) ∧ value.toInt = -7) ∧
      other.evaluate values = sample.evaluate values := by
  have hsample : sample.WellFormed := by decide +kernel
  have hvars : sample.vars = [⟨"x", .integer⟩, ⟨"y", .integer⟩] := by decide +kernel
  have hvalues : ∀ x ∈ sample.vars, ∃ i, values.get? x.name = some (.integer i) := by
    rw [hvars]
    exact List.forall_mem_cons.mpr ⟨⟨_, rfl⟩, List.forall_mem_singleton.mpr ⟨_, rfl⟩⟩
  obtain ⟨⟨value, hvalue, hexact⟩, hother⟩ := evaluate_exactIn hsample rfl hvalues
  refine ⟨hsample, rfl, hvalues, ⟨value, hvalue, hexact.trans ?_⟩, hother other rearranged_sample⟩
  decide +kernel

end ExactArithmeticWitness

end Expression

end ClauseForm
