import ClauseForm.Expression.Fold
import ClauseForm.FormulaText.Token

/-!
Writing an expression as text.

Operators are written between their operands, and an operand is put into parentheses unless it
binds tighter than the operator, so the text keeps the nesting of chains.  Degenerate junctions have
no text of their own: without operands they are written as the constant they amount to, with one
operand as that operand.
-/

namespace ClauseForm

/-- The text of a phrase and how tightly it binds. -/
structure Phrase where
  text : String
  strength : Nat

namespace Phrase

/-- A phrase that needs no parentheses anywhere. -/
def closed (text : String) : Phrase := ⟨text, 7⟩

/-- The text of a phrase below an operator of some strength. -/
def operandText (p : Phrase) (strength : Nat) : String :=
  if p.strength ≤ strength then "(" ++ p.text ++ ")" else p.text

/-- Phrases joined by an operator. -/
def joined (operator : String) (strength : Nat) (ps : List Phrase) : Phrase :=
  ⟨String.intercalate operator (ps.map fun p => p.operandText strength), strength⟩

/-- A name, in quotes unless it can do without. -/
def nameText (name : String) : String :=
  if Token.isPlainName name.toList then name else "\"" ++ name ++ "\""

end Phrase

namespace Symbol

/-- The symbols that a negation sign is written in front of without parentheses.  A positive literal
is not among them: its negation node must not be read as a negative literal. -/
def isBareBelowNot : Symbol → Bool
  | literal _ positive => !positive
  | not | verum | falsum => true
  | _ => false

end Symbol

namespace Expression

/-- The phrase of a node from the phrases of its operands. -/
def phrase (e : Expression) (ps : List Phrase) : Phrase :=
  match e.symbol, ps with
  | .verum, _ => .closed "$true"
  | .falsum, _ => .closed "$false"
  | .literal name true, _ => .closed (Phrase.nameText name)
  | .literal name false, _ => .closed ("~" ++ Phrase.nameText name)
  | .unknown name, _ => .closed (Phrase.nameText name)
  | .constant value, _ => .closed (toString value.toInt)
  | .not, ps =>
    let text := (ps.map Phrase.text).getD 0 ""
    let bare := e.operands.head?.any fun o => o.symbol.isBareBelowNot
    .closed (if bare then "~" ++ text else "~(" ++ text ++ ")")
  | .and, [] => .closed "$true"
  | .or, [] => .closed "$false"
  | .and, [p] | .or, [p] => p
  | .and, ps => .joined " & " 4 ps
  | .or, ps => .joined " | " 3 ps
  | .implies, ps => .joined " => " 2 ps
  | .equivalent, ps => .joined " <=> " 1 ps
  | .sum, ps => .joined " + " 5 ps
  | .product, ps => .joined " * " 6 ps
  | .compare c, ps => .closed (String.intercalate (" " ++ c.sign ++ " ") (ps.map Phrase.text))

/-- The text of an expression. -/
def text (e : Expression) : String := (e.fold phrase).text

instance : ToString Expression := ⟨text⟩

/-- The text of an expression for diagnostics. -/
def label (e : Expression) : String := "Expression(" ++ e.text ++ ")"

end Expression

/-- What a way of writing expressions is called, and the usual extension of files in it. -/
structure TextFormat where
  name : String
  extension : String
deriving DecidableEq

/-- The format in which operators stand between their operands. -/
def TextFormat.betweenOperands : TextFormat := ⟨"infix", "txt"⟩

end ClauseForm
