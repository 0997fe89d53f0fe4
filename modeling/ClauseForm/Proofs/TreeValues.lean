import ClauseForm.Proofs.FormulaGrammar
import ClauseForm.Proofs.Readings

/-!
What trees stand for, and what the tokens of the same text are read as.

Where the operands of a tree stand for what their tokens are read as, so does the tree.  In
particular the checked constructor accepts the operands, since those that can be read fit.
-/

namespace ClauseForm

namespace Grammar

open Expression Reading

variable {good : String → Prop} {ts : List Token} {c : Category} {s : Symbol} {es : List Expression}
  {rs : List Reading} {r : Reading}

/-- A reading as what a tree can stand for. -/
def ofReading (r : Reading) : Result := r.mapError .number

theorem mapM_ofReading (rs : List Reading) :
    (rs.map ofReading).mapM id = (rs.mapM id).mapError .number := by
  induction rs with
  | nil => rfl
  | cons r rs ih =>
      rw [List.map_cons, List.mapM_cons, List.mapM_cons, ih]
      cases r with
      | error text => rfl
      | ok e => cases rs.mapM id <;> rfl

/-- The checked constructor builds the nodes that are well-formed. -/
theorem checked_of_wellFormed (h : (Expression.node s es).WellFormed) :
    checked s es = .ok (.node s es) := by
  cases h with
  | node hfit _ => simp [checked, make?, hfit, Except.mapError]

theorem junction_ofReading (hs : s = .and ∨ s = .or ∨ s = .sum ∨ s = .product)
    (hc : s.category = c) (hne : rs ≠ []) (hrs : ∀ r ∈ rs, Fits good c ts r) :
    junction s (rs.map ofReading) = ofReading (Reading.junction s rs) := by
  have hfits := fits_junction hs hc hne hrs
  match rs with
  | [] => contradiction
  | [r] => rfl
  | r :: q :: rs =>
      have hmap : junction s ((r :: q :: rs).map ofReading) =
          (do checked s (← ((r :: q :: rs).map ofReading).mapM id)) := rfl
      have hread : Reading.junction s (r :: q :: rs) =
          (do return .node s (← (r :: q :: rs).mapM id)) := rfl
      rw [hmap, mapM_ofReading, hread]
      rw [hread] at hfits
      cases hall : (r :: q :: rs).mapM id with
      | error text => rfl
      | ok es =>
          rw [hall] at hfits
          exact checked_of_wellFormed hfits.wellFormed

/-- What the operator between two operands makes of them. -/
theorem checked_pair {a b : Reading} (h : ∀ l r, a = .ok l → b = .ok r →
    (Expression.node s [l, r]).WellFormed) :
    (do let r ← ofReading b; let l ← ofReading a; checked s [l, r]) =
      ofReading (do let r ← b; let l ← a; return .node s [l, r]) := by
  cases b with
  | error text => rfl
  | ok r =>
      cases a with
      | error text => rfl
      | ok l => exact checked_of_wellFormed (h l r rfl rfl)

theorem nested_ofReading (hs : s = .implies ∨ s = .equivalent)
    (hrs : ∀ r ∈ rs, Fits good .formula ts r) (h : Reading.nested s rs = some r) :
    nested s (rs.map ofReading) = ofReading r := by
  have run : ∀ (before : List Reading) last, Fits good .formula ts last →
      (∀ r ∈ before, Fits good .formula ts r) →
      (before.map ofReading).foldl (fun right part => do
        let r ← right
        let l ← part
        checked s [l, r]) (ofReading last) =
      ofReading (before.foldl (fun right part => do
        let r ← right
        let l ← part
        return .node s [l, r]) last) := by
    intro before
    induction before with
    | nil => exact fun _ _ _ => rfl
    | cons part before ih =>
        intro last hlast hbefore
        obtain ⟨hpart, hbefore⟩ := List.forall_mem_cons.mp hbefore
        have hpair := fits_pair hs hlast hpart
        rw [List.map_cons, List.foldl_cons, List.foldl_cons, ← ih _ hpair hbefore, checked_pair]
        rintro l r rfl rfl
        exact hpair.wellFormed
  have hreversed : ∀ r ∈ rs.reverse, Fits good .formula ts r := fun r hr =>
    hrs r (List.mem_reverse.mp hr)
  unfold Reading.nested at h
  unfold nested
  rw [← List.map_reverse]
  split at h
  · contradiction
  · next last before hparts =>
      rw [hparts] at hreversed ⊢
      obtain ⟨hlast, hbefore⟩ := List.forall_mem_cons.mp hreversed
      rw [List.map_cons, ← Option.some.inj h]
      exact run before last hlast hbefore

/-- What the operator of a strength makes of what its operands stand for. -/
def assemble : Nat → List Result → Result
  | 1, operands => nested .equivalent operands
  | 2, operands => nested .implies operands
  | 3, operands => junction .or operands
  | 4, operands => junction .and operands
  | 5, operands => junction .sum operands
  | _, operands => junction .product operands

theorem assemble_ofReading {n : Nat} (hn : Operates c n) (hne : rs ≠ [])
    (hrs : ∀ r ∈ rs, Fits good c ts r) (h : combine n rs = some r) :
    assemble n (rs.map ofReading) = ofReading r := by
  cases c with
  | formula =>
      match n, hn with
      | 1, _ => exact nested_ofReading (.inr rfl) hrs h
      | 2, _ => exact nested_ofReading (.inl rfl) hrs h
      | 3, _ => exact Option.some.inj h ▸ junction_ofReading (by simp) rfl hne hrs
      | 4, _ => exact Option.some.inj h ▸ junction_ofReading (by simp) rfl hne hrs
  | term =>
      match n, hn with
      | 5, _ => exact Option.some.inj h ▸ junction_ofReading (by simp) rfl hne hrs
      | 6, _ => exact Option.some.inj h ▸ junction_ofReading (by simp) rfl hne hrs

/-- The checked constructor takes a formula below any number of negations. -/
theorem negated_of_regular {e : Expression} (he : Regular (fun _ => True) .formula e) (n : Nat) :
    negated n e = .ok (Reading.negated n e) := by
  induction n with
  | zero => rfl
  | succ n ih =>
      rw [negated, ih]
      exact checked_of_wellFormed (regular_negated he (n + 1)).wellFormed

theorem negated_ofReading (hr : Fits (fun _ => True) .formula ts r) (n : Nat) :
    (do negated n (← ofReading r)) = ofReading (r.map (Reading.negated n)) := by
  cases r with
  | error text => rfl
  | ok e => exact negated_of_regular hr n

/-! ### Atoms -/

/-- What a tree stands for behind a number of negation signs. -/
def signed (signs : Nat) (t : ParseTree Rule) : Result :=
  match t.rule with
  | .verum => negated signs (.truth true)
  | .falsum => negated signs (.truth false)
  | .comparison => do negated signs (← build .comparison t)
  | .name => do negated (signs - 1) (.literal (← nameOf t) (signs == 0))
  | .equivalence => do negated signs (← build .equivalence t)
  | _ => .error .stuck

theorem build_unary {r : Rule} {text : String} {signs : List (ParseTree Rule)} {t : ParseTree Rule}
    (hsigns : ∀ u ∈ signs, u.rule = .negation) (ht : t.rule ≠ .negation) :
    build .unary (.node r text (signs ++ [t])) = signed signs.length t := by
  have hall : ∀ u ∈ signs, (u.rule == Rule.negation) = true := fun u hu => by simp [hsigns u hu]
  have hnot : (t.rule == Rule.negation) = false := by simpa using ht
  have htake : (signs ++ [t]).takeWhile (·.rule == .negation) = signs := by
    simp [List.takeWhile_append_of_pos hall, hnot]
  have hdrop : (signs ++ [t]).dropWhile (·.rule == .negation) = [t] := by
    simp [List.dropWhile_append_of_pos hall, hnot]
  rw [build, htake]
  split
  · next hnil =>
      rw [hdrop] at hnil
      contradiction
  · next u more hcons =>
      rw [hdrop] at hcons
      obtain ⟨rfl, rfl⟩ := List.cons.inj hcons
      rfl

/-! ### Levels -/

/-- The part of a formula that stands below an operator of some strength. -/
def partBelow : Category → Nat → Part
  | .formula, 0 => .equivalence
  | .formula, 1 => .implication
  | .formula, 2 => .disjunction
  | .formula, 3 => .conjunction
  | .formula, _ => .unary
  | .term, 0 | .term, 1 | .term, 2 | .term, 3 | .term, 4 => .sum
  | .term, 5 => .product
  | .term, _ => .factor

/-- What matches below an operator of some strength. -/
def pegBelow : Category → Nat → Peg Rule
  | .formula, 0 => .rule .equivalence
  | .formula, 1 => .rule .implication
  | .formula, 2 => .rule .disjunction
  | .formula, 3 => .rule .conjunction
  | .formula, _ => .rule .unary
  | .term, 0 | .term, 1 | .term, 2 | .term, 3 | .term, 4 => .rule .sum
  | .term, 5 => .rule .product
  | .term, _ => factor

/-- How the operator of a strength is written. -/
def operator : Nat → String
  | 1 => "<=>"
  | 2 => "=>"
  | 3 => "|"
  | 4 => "&"
  | 5 => "+"
  | _ => "*"

/-- Each level above an operator is the rule of a series, and its trees are assembled from the
operands. -/
theorem exists_rule_below {n : Nat} (h : Operates c (n + 1)) :
    ∃ r, pegBelow c n = .rule r ∧ body r = series (pegBelow c (n + 1)) (operator (n + 1)) ∧
      ∀ text ts, build (partBelow c n) (.node r text ts) =
        assemble (n + 1) (ts.map (build (partBelow c (n + 1)))) := by
  cases c with
  | formula =>
      obtain ⟨-, hle⟩ := h
      obtain rfl | rfl | rfl | rfl : n = 0 ∨ n = 1 ∨ n = 2 ∨ n = 3 := by omega
      · exact ⟨.equivalence, rfl, rfl, fun _ _ => by rw [partBelow, build]; rfl⟩
      · exact ⟨.implication, rfl, rfl, fun _ _ => by rw [partBelow, build]; rfl⟩
      · exact ⟨.disjunction, rfl, rfl, fun _ _ => by rw [partBelow, build]; rfl⟩
      · exact ⟨.conjunction, rfl, rfl, fun _ _ => by rw [partBelow, build]; rfl⟩
  | term =>
      obtain ⟨hge, hle⟩ := h
      obtain rfl | rfl : n = 4 ∨ n = 5 := by omega
      · exact ⟨.sum, rfl, rfl, fun _ _ => by rw [partBelow, build]; rfl⟩
      · exact ⟨.product, rfl, rfl, fun _ _ => by rw [partBelow, build]; rfl⟩

end Grammar

end ClauseForm
