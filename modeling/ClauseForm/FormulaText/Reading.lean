import ClauseForm.Expression
import ClauseForm.FormulaText.Token

/-!
Reading an expression from text.

The tokens are read in one pass that keeps the open parentheses.  When a pair of parentheses
closes, what stands between them is read at once, both as a formula and as a term, and becomes one
item of the surrounding text.  So the items between two parentheses form a flat list, and the
operators of that list are taken apart from the weakest to the strongest:

* equivalences and implications, which group to the right,
* disjunctions and conjunctions of any number of operands,
* negation signs in front of an atom: a constant, a name, a comparison of two terms, or a group,
* inside a comparison, sums of products of numerals, names and groups.

A chain with a single operand is that operand.  The sign next to a name belongs to the literal.
-/

namespace ClauseForm

/-- What a text that follows the grammar stands for: an expression, or the numeral that is out of
range and makes it stand for none. -/
abbrev Reading := Except String Expression

/-- One piece of the text between two parentheses: a token, or a closed group with its readings as a
formula and as a term, where the grammar has them. -/
inductive Item where
  | token (t : Token)
  | group (asFormula asTerm : Option Reading)

namespace Item

/-- Decides whether an item is a certain token. -/
def isToken (t : Token) : Item → Bool
  | token u => u == t
  | group .. => false

/-- The comparison that an item is the sign of. -/
def comparison? : Item → Option Comparison
  | token (.comparison c) => some c
  | _ => none

end Item

namespace Reading

/-- The constant that a numeral stands for, if it fits into 64 bits. -/
def numeral (text : String) : Reading :=
  let value : Int :=
    match text.toList with
    | '-' :: digits => -(Nat.ofDigitChars 10 digits 0 : Int)
    | digits => Nat.ofDigitChars 10 digits 0
  if Int64.minValue.toInt ≤ value ∧ value ≤ Int64.maxValue.toInt then
    .ok (.constant (Int64.ofInt value))
  else
    .error text

/-- The parts of a chain below one symbol, looked at from the left. -/
def junction (s : Symbol) (parts : List Reading) : Reading :=
  match parts with
  | [part] => part
  | parts => return .node s (← parts.mapM id)

/-- The parts of a chain nested to the right, looked at from the right. -/
def nested (s : Symbol) (parts : List Reading) : Option Reading :=
  match parts.reverse with
  | [] => none
  | last :: before => some <| before.foldl (fun right part => do
      let r ← right
      let l ← part
      return .node s [l, r]) last

/-- A number of negations around an expression. -/
def negated (count : Nat) (e : Expression) : Expression := count.repeat (.node .not [·]) e

/-- The reading of a factor: a numeral, a name or a group. -/
def factor : List Item → Option Reading
  | [.token (.numeral text)] => some (numeral text)
  | [.token (.name name)] => some (.ok (.unknown name))
  | [.group _ asTerm] => asTerm
  | _ => none

/-- The reading of a product of factors. -/
def product (items : List Item) : Option Reading := do
  let parts ← (items.splitOnP (Item.isToken .times)).mapM factor
  return junction .product parts

/-- The reading of a sum of products. -/
def term (items : List Item) : Option Reading := do
  let parts ← (items.splitOnP (Item.isToken .plus)).mapM product
  return junction .sum parts

/-- The reading of a comparison of two terms. -/
def comparison (items : List Item) : Option Reading := do
  match items.dropWhile (·.comparison?.isNone) with
  | [] => none
  | sign :: after =>
    let c ← sign.comparison?
    let left ← term (items.takeWhile (·.comparison?.isNone))
    let right ← term after
    return do
      let l ← left
      let r ← right
      return .node (.compare c) [l, r]

/-- The reading of an atom behind a number of negation signs. -/
def atom (signs : Nat) : List Item → Option Reading
  | [.token .verum] => some (.ok (negated signs (.truth true)))
  | [.token .falsum] => some (.ok (negated signs (.truth false)))
  | [.token (.name name)] => some (.ok (negated (signs - 1) (.literal name (signs == 0))))
  | [.group asFormula _] => asFormula.map fun reading => reading.map (negated signs)
  | items => (comparison items).map fun reading => reading.map (negated signs)

/-- The reading of an atom with the negation signs in front of it. -/
def unary (items : List Item) : Option Reading :=
  atom (items.takeWhile (Item.isToken .negation)).length
    (items.dropWhile (Item.isToken .negation))

/-- The reading of a conjunction. -/
def conjunction (items : List Item) : Option Reading := do
  let parts ← (items.splitOnP (Item.isToken .conjunction)).mapM unary
  return junction .and parts

/-- The reading of a disjunction. -/
def disjunction (items : List Item) : Option Reading := do
  let parts ← (items.splitOnP (Item.isToken .disjunction)).mapM conjunction
  return junction .or parts

/-- The reading of a chain of implications. -/
def implication (items : List Item) : Option Reading := do
  let parts ← (items.splitOnP (Item.isToken .implication)).mapM disjunction
  nested .implies parts

/-- The reading of a chain of equivalences, which is what a formula is. -/
def formula (items : List Item) : Option Reading := do
  let parts ← (items.splitOnP (Item.isToken .equivalence)).mapM implication
  nested .equivalent parts

/-- Reads tokens behind the items of the innermost open group and of those around it, the latest
item and the innermost group in front. -/
def readFrom : List Token → List Item → List (List Item) → Option Reading
  | [], items, [] => formula items.reverse
  | [], _, _ :: _ => none
  | .opening :: tokens, items, around => readFrom tokens [] (items :: around)
  | .closing :: _, _, [] => none
  | .closing :: tokens, items, outer :: around =>
    readFrom tokens (.group (formula items.reverse) (term items.reverse) :: outer) around
  | t :: tokens, items, around => readFrom tokens (.token t :: items) around

/-- The reading of the tokens of a formula. -/
def ofTokens (tokens : List Token) : Option Reading := readFrom tokens [] []

end Reading

/-- Why a text is no formula. -/
inductive TextError where
  /-- The text does not follow the grammar. -/
  | malformed
  /-- A numeral does not fit into 64 bits. -/
  | outOfRange (numeral : String)
deriving DecidableEq

/-- The message for a text that is no formula. -/
def TextError.message : TextError → String
  | malformed => "syntax error"
  | outOfRange numeral => s!"integer out of range: {numeral}"

namespace Expression

/-- Reads a formula.  The empty text stands for the formula that always holds. -/
def ofText (text : String) : Except TextError Expression :=
  match Token.scan text.toList with
  | none => .error .malformed
  | some [] => .ok (truth true)
  | some tokens =>
    match Reading.ofTokens tokens with
    | none => .error .malformed
    | some (.error numeral) => .error (.outOfRange numeral)
    | some (.ok e) => .ok e

end Expression

end ClauseForm
