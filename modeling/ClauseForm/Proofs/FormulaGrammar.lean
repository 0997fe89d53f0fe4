import ClauseForm.FormulaText.Reading
import ClauseForm.Proofs.ParsingExpressions

/-!
The grammar of written formulas as parsing expressions, and what its trees stand for.

Layout may stand between the parts of a rule, unless the rule is one of a name, a numeral or a
single sign.  A comparison is tried before a name and before a formula in parentheses, since both
can be the beginning of one.

`Grammar.build` makes an expression of a tree with the checked constructor of nodes, and says so if
the tree is not one that the part of the expression can have.  `settles_formula` says that a formula
has an outcome on every text.
-/

namespace ClauseForm

namespace Grammar

/-- The rules of the grammar. -/
inductive Rule where
  | formula
  | equivalence
  | implication
  | disjunction
  | conjunction
  | unary
  | negation
  | verum
  | falsum
  | comparison
  | sign (c : Comparison)
  | sum
  | product
  | number
  | name
  | plainName
  | quotedName
  | endOfText
deriving DecidableEq

open Peg

/-- The layout between the parts of a rule. -/
def layout : Peg Rule := .many (.char Token.isLayout)

/-- One part of a rule and then another. -/
def followed (a b : Peg Rule) : Peg Rule := .seq a (.seq layout b)

/-- A part that may be missing. -/
def optional (a : Peg Rule) : Peg Rule := .choice a .empty

/-- Repetitions of a part with layout between them. -/
def repeated (a : Peg Rule) : Peg Rule := optional (.seq a (.many (.seq layout a)))

/-- Operands with an operator between them. -/
def series (operand : Peg Rule) (operator : String) : Peg Rule :=
  followed operand (repeated (followed (.text operator) operand))

/-- A part in parentheses. -/
def parenthesized (a : Peg Rule) : Peg Rule :=
  followed (.text "(") (followed a (.text ")"))

/-- The signs of comparisons.  A sign with a second character comes before the one without. -/
def comparator : Peg Rule :=
  .choice (.rule (.sign .notEqual)) <| .choice (.rule (.sign .lessOrEqual)) <|
    .choice (.rule (.sign .greaterOrEqual)) <| .choice (.rule (.sign .less)) <|
    .choice (.rule (.sign .greater)) (.rule (.sign .equal))

/-- What negation signs may stand in front of. -/
def atom : Peg Rule :=
  .choice (.rule .verum) <| .choice (.rule .falsum) <| .choice (.rule .comparison) <|
    .choice (.rule .name) (parenthesized (.rule .equivalence))

/-- What a product is made of. -/
def factor : Peg Rule :=
  .choice (.rule .number) (.choice (.rule .name) (parenthesized (.rule .sum)))

/-- The parsing expressions of the rules. -/
def body : Rule → Peg Rule
  | .formula => followed .empty (followed (optional (.rule .equivalence)) (.rule .endOfText))
  | .equivalence => series (.rule .implication) "<=>"
  | .implication => series (.rule .disjunction) "=>"
  | .disjunction => series (.rule .conjunction) "|"
  | .conjunction => series (.rule .unary) "&"
  | .unary => followed (repeated (.rule .negation)) atom
  | .negation => .text "~"
  | .verum => .text "$true"
  | .falsum => .text "$false"
  | .comparison => followed (.rule .sum) (followed comparator (.rule .sum))
  | .sign .lessOrEqual => .seq (.text "<=") (.not (.text ">"))
  | .sign .equal => .seq (.text "=") (.not (.text ">"))
  | .sign c => .text c.sign
  | .sum => series (.rule .product) "+"
  | .product => series factor "*"
  | .number => .seq (optional (.text "-")) (.seq (.char Char.isDigit) (.many (.char Char.isDigit)))
  | .name => .choice (.rule .plainName)
      (.seq (.text "\x22") (.seq (.rule .quotedName) (.text "\x22")))
  | .plainName => .seq (.char Token.isNameStart) (.many (.char Token.isNamePart))
  | .quotedName => .many (.seq (.not (.text "\x22")) (.char fun _ => true))
  | .endOfText => .not (.char fun _ => true)

/-! ### What trees stand for -/

/-- Why a tree stands for no expression. -/
inductive Fault where
  /-- A symbol can not stand over its operands. -/
  | misfit (m : Misfit)
  /-- A numeral does not fit into 64 bits. -/
  | number (text : String)
  /-- The tree is none of the grammar. -/
  | stuck
deriving DecidableEq

/-- The expression that a tree stands for, or why there is none. -/
abbrev Result := Except Fault Expression

/-- A node over operands that have to fit its symbol. -/
def checked (s : Symbol) (es : List Expression) : Result :=
  (Expression.make? s es).mapError .misfit

/-- The operands of a series below one symbol, looked at from the left. -/
def junction (s : Symbol) (operands : List Result) : Result :=
  match operands with
  | [operand] => operand
  | operands => do checked s (← operands.mapM id)

/-- The operands of a series nested to the right, looked at from the right. -/
def nested (s : Symbol) (operands : List Result) : Result :=
  match operands.reverse with
  | [] => .error .stuck
  | last :: before => before.foldl (fun right operand => do
      let r ← right
      let l ← operand
      checked s [l, r]) last

/-- A number of negations around an expression. -/
def negated : Nat → Expression → Result
  | 0, e => .ok e
  | n + 1, e => do checked .not [← negated n e]

/-- The name that a tree of the rule of names holds. -/
def nameOf (t : ParseTree Rule) : Except Fault String :=
  match t.children with
  | [] => .error .stuck
  | inside :: _ => .ok inside.text

/-- The parts of a written formula that trees are read as. -/
inductive Part where
  | equivalence
  | implication
  | disjunction
  | conjunction
  | unary
  | comparison
  | sum
  | product
  | factor

private theorem sizeOf_lt_of_dropWhile {ts more : List (ParseTree Rule)} {t : ParseTree Rule}
    {p : ParseTree Rule → Bool} (h : ts.dropWhile p = t :: more) : sizeOf t < sizeOf ts :=
  List.sizeOf_lt_of_mem ((List.dropWhile_subset p) (h ▸ List.mem_cons_self))

/-- The expression that a tree stands for as a certain part of a formula. -/
def build : Part → ParseTree Rule → Result
  | .equivalence, .node _ _ ts => nested .equivalent (ts.map (build .implication))
  | .implication, .node _ _ ts => nested .implies (ts.map (build .disjunction))
  | .disjunction, .node _ _ ts => junction .or (ts.map (build .conjunction))
  | .conjunction, .node _ _ ts => junction .and (ts.map (build .unary))
  | .unary, .node _ _ ts =>
    let signs := (ts.takeWhile (·.rule == .negation)).length
    match h : ts.dropWhile (·.rule == .negation) with
    | [] => .error .stuck
    | t :: _ =>
      have := sizeOf_lt_of_dropWhile h
      match t.rule with
      | .verum => negated signs (.truth true)
      | .falsum => negated signs (.truth false)
      | .comparison => do negated signs (← build .comparison t)
      -- The sign next to a name belongs to the literal.
      | .name => do negated (signs - 1) (.literal (← nameOf t) (signs == 0))
      | .equivalence => do negated signs (← build .equivalence t)
      | _ => .error .stuck
  | .comparison, .node _ _ (left :: between :: right :: _) => do
    let l ← build .sum left
    match between.rule with
    | .sign c => do
      let r ← build .sum right
      checked (.compare c) [l, r]
    | _ => .error .stuck
  | .comparison, _ => .error .stuck
  | .sum, .node _ _ ts => junction .sum (ts.map (build .product))
  | .product, .node _ _ ts => junction .product (ts.map (build .factor))
  | .factor, t =>
    match t.rule with
    | .number => (Reading.numeral t.text).mapError .number
    | .name => (nameOf t).map .unknown
    | .sum => build .sum t
    | _ => .error .stuck
termination_by part t => (sizeOf t, if part matches .factor then 1 else 0)

/-- The formula that the tree of a whole text stands for.  A text without any stands for the formula
that always holds. -/
def formulaOf (t : ParseTree Rule) : Result :=
  t.children.foldlM (fun found t =>
    match t.rule with
    | .equivalence => build .equivalence t
    | .endOfText => .ok found
    | _ => .error .stuck) (.truth true)

/-! ### Every rule has an outcome -/

variable {a operand : Peg Rule} {operator : String} {n : Nat}

theorem settles_layout : Settles body n layout := .many (settles_char _) (advances_char _)

theorem settles_followed {b : Peg Rule} (ha : Settles body n a) (hb : Settles body n b) :
    Settles body n (followed a b) :=
  ha.seq (settles_layout.seq hb)

theorem settles_optional (ha : Settles body n a) : Settles body n (optional a) :=
  ha.choice settles_empty

theorem settles_repeated (ha : Settles body n a) (hadvances : Advances body a) :
    Settles body n (repeated a) :=
  settles_optional (ha.seq ((settles_layout.seq ha).many (hadvances.seq_right _)))

theorem settles_series (hoperand : Settles body n operand) (hoperator : operator.toList ≠ []) :
    Settles body n (series operand operator) :=
  settles_followed hoperand (settles_repeated (settles_followed (settles_text _) hoperand)
    ((advances_text hoperator).seq_left _))

/-- Between parentheses the text is shorter. -/
theorem settles_parenthesized (ha : ∀ m < n, Settles body m a) :
    Settles body n (parenthesized a) :=
  settles_text_seq (by simp) fun m hm =>
    settles_layout.seq (settles_followed (ha m hm) (settles_text _))

theorem settles_digits : Settles body n (.seq (.char Char.isDigit) (.many (.char Char.isDigit))) :=
  (settles_char _).seq ((settles_char _).many (advances_char _))

theorem settles_number : Settles body n (.rule .number) :=
  .rule ((settles_optional (settles_text _)).seq settles_digits)

theorem settles_plainName : Settles body n (.rule .plainName) :=
  .rule ((settles_char _).seq ((settles_char _).many (advances_char _)))

theorem settles_quotedName : Settles body n (.rule .quotedName) :=
  .rule (((settles_text _).not.seq (settles_char _)).many ((advances_char _).seq_right _))

theorem settles_name : Settles body n (.rule .name) :=
  .rule (settles_plainName.choice
    ((settles_text _).seq (settles_quotedName.seq (settles_text _))))

theorem settles_sign (c : Comparison) : Settles body n (.rule (.sign c)) := by
  cases c with
  | equal => exact .rule ((settles_text _).seq (settles_text _).not)
  | lessOrEqual => exact .rule ((settles_text _).seq (settles_text _).not)
  | notEqual | less | greater | greaterOrEqual => exact .rule (settles_text _)

theorem settles_comparator : Settles body n comparator :=
  (settles_sign _).choice <| (settles_sign _).choice <| (settles_sign _).choice <|
    (settles_sign _).choice <| (settles_sign _).choice (settles_sign _)

theorem settles_sum : Settles body n (.rule .sum) := by
  induction n using Nat.strong_induction_on with
  | _ n ih =>
      have hfactor : Settles body n factor :=
        settles_number.choice (settles_name.choice (settles_parenthesized ih))
      exact .rule (settles_series (.rule (settles_series hfactor (by simp))) (by simp))

theorem settles_comparison : Settles body n (.rule .comparison) :=
  .rule (settles_followed settles_sum (settles_followed settles_comparator settles_sum))

theorem settles_negation : Settles body n (.rule .negation) := .rule (settles_text _)

theorem settles_equivalence : Settles body n (.rule .equivalence) := by
  induction n using Nat.strong_induction_on with
  | _ n ih =>
      have hverum : Settles body n (.rule .verum) := .rule (settles_text _)
      have hfalsum : Settles body n (.rule .falsum) := .rule (settles_text _)
      have hatom : Settles body n atom := hverum.choice <| hfalsum.choice <|
        settles_comparison.choice <| settles_name.choice (settles_parenthesized ih)
      have hunary : Settles body n (.rule .unary) :=
        .rule (settles_followed
          (settles_repeated settles_negation (Advances.rule (advances_text (by simp)))) hatom)
      have hconjunction : Settles body n (.rule .conjunction) :=
        .rule (settles_series hunary (by simp))
      have hdisjunction : Settles body n (.rule .disjunction) :=
        .rule (settles_series hconjunction (by simp))
      exact .rule (settles_series (.rule (settles_series hdisjunction (by simp))) (by simp))

/-- Every text follows the grammar or does not. -/
theorem settles_formula : Settles body n (.rule .formula) :=
  .rule (settles_followed settles_empty
    (settles_followed (settles_optional settles_equivalence) (.rule (settles_char _).not)))

end Grammar

end ClauseForm
