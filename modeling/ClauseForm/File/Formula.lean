import ClauseForm.FormulaText.Reading
import ClauseForm.FormulaText.Render
import ClauseForm.Text.Blank
import ClauseForm.Text.Lines

/-!
Files with one formula a line, which stand for the conjunction of their lines.
-/

namespace ClauseForm.FormulaFile

/-- Why a file holds no formula. -/
inductive Error where
  /-- A line is not valid UTF-8. -/
  | notText
  /-- A line, counted from 1, is no formula. -/
  | line (number : Nat) (error : TextError)
deriving DecidableEq

/-- The message for a file that holds no formula. -/
def Error.message : Error → String
  | notText => "stream did not contain valid UTF-8"
  | line number error => s!"line {number}: {error.message}"

/-- The formula on a numbered line, if there is more than white space on it. -/
def readLine (line : Option String) (number : Nat) : Except Error (Option Expression) :=
  match line with
  | none => .error .notText
  | some text =>
    if (Text.trim text.toList).isEmpty then .ok none
    else
      match Expression.ofText text with
      | .ok e => .ok (some e)
      | .error error => .error (.line number error)

/-- The conjunction of the formulas in a file.  A single formula is not wrapped. -/
def conjunction : List Expression → Expression
  | [] => .truth true
  | [e] => e
  | es => .node .and es

/-- Reads a file. -/
def read (file : ByteArray) : Except Error Expression := do
  let formulas ← ((Text.lines file).zipIdx 1).mapM fun (line, number) => readLine line number
  return conjunction (formulas.filterMap id)

/-- The lines that a formula is written on: one for each operand of a conjunction. -/
def parts (e : Expression) : List Expression :=
  match e.symbol with
  | .and => e.operands
  | _ => [e]

/-- The text of a file. -/
def write (e : Expression) : String := String.join ((parts e).map fun part => part.text ++ "\n")

end ClauseForm.FormulaFile
