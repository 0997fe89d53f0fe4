import ClauseForm.Clauses.Encoding
import ClauseForm.Text.Blank
import ClauseForm.Text.Decimal
import ClauseForm.Text.Lines

/-!
Clauses in the DIMACS format.

Each clause stands on a line of its own and ends with a zero.  A comment `c <index> <name>` names an
index; other comments and the line with the counts are skipped.  Indices that occur without a name
are named after themselves once the whole file is read.

The pieces of a line stand between runs of spaces and tabs.  A regular expression for such a run,
`[ \t]+`, matches from the left and as far as it can, so splitting a text at it gives the longest
parts without these characters, and an empty part before a run that the text begins with and after
one that it ends with.  Only trimmed lines that are not empty are split, which have neither, so
`pieces` lists all parts.  Splitting into at most three parts stops after two runs and leaves the
rest as it is, which `cut` does twice; a text with fewer runs has fewer parts, and then the last of
the three is empty here, which is refused like a part that is missing.
-/

namespace ClauseForm.Dimacs

/-- Why a file holds no clauses. -/
inductive Error where
  /-- A line is not valid UTF-8. -/
  | notText
  /-- The line of a clause does not end with a zero. -/
  | unterminated (line : String)
  /-- A piece of the line of a clause is no integer of 32 bits. -/
  | literal (text : String) (error : Text.DecimalError)
  /-- Integers that can not be the literals of a clause. -/
  | clause (faults : Faults)
  /-- A name and an index that do not fit the others. -/
  | naming (fault : Fault)
deriving DecidableEq

/-- The message for a file that holds no clauses. -/
def Error.message : Error → String
  | notText => "stream did not contain valid UTF-8"
  | unterminated line => s!"line {line} did not end with 0"
  | literal text error => s!"invalid literal {text}: {error.message}"
  | clause faults => faults.message
  | naming fault => fault.message

/-- The characters between the pieces of a line. -/
def isGap (c : Char) : Bool := c == ' ' || c == '\t'

/-- The first piece of a line and what follows the gap behind it. -/
def cut (cs : List Char) : List Char × List Char :=
  (cs.takeWhile (!isGap ·), (cs.dropWhile (!isGap ·)).dropWhile isGap)

/-- The pieces of a line. -/
def pieces (cs : List Char) : List (List Char) :=
  (cs.splitOnP isGap).filter fun piece => !piece.isEmpty

/-- The name that a comment gives to an index. -/
def naming? (comment : List Char) : Option (Int × String) :=
  let (mark, rest) := cut comment
  let (number, name) := cut rest
  let name := Text.trim name
  if mark == ['c'] && !name.isEmpty then
    match Text.readInt32 number with
    | .ok index => if 0 < index then some (index, String.ofList name) else none
    | .error _ => none
  else
    none

/-- The clause on a line. -/
def readClause (line : List Char) : Except Error Clause := do
  let ps := pieces line
  if ps.getLast? == some ['0'] then
    let literals ← ps.dropLast.mapM fun piece =>
      (Text.readInt32 piece).mapError (.literal (String.ofList piece))
    (Literals.ofList? literals).mapError .clause
  else
    throw (.unterminated (String.ofList line))

/-- Adds what stands on a line. -/
def addLine (found : Encoding) (line : Option String) : Except Error Encoding := do
  match line with
  | none => throw .notText
  | some text =>
    match Text.trim text.toList with
    | [] => return found
    | 'p' :: _ => return found
    | 'c' :: comment =>
      match naming? ('c' :: comment) with
      | none => return found
      | some (index, name) =>
        return { found with numbering := ← (found.numbering.insert name index).mapError .naming }
    | line => return { found with clauses := found.clauses.push (← readClause line) }

/-- The name of an index that has no other. -/
def substitute (index : Nat) : String := s!"v{index}"

/-- Names the indices that occur without a name, in increasing order. -/
def nameAll (found : Encoding) : Except Error Encoding := do
  let numbering ← found.clauses.indices.foldlM (fun (m : Numbering) (index : Nat) =>
    if (m.nameOf? index).isSome then .ok m
    else (m.insert (substitute index) index).mapError .naming) found.numbering
  return { found with numbering := numbering }

/-- Reads a file. -/
def read (file : ByteArray) : Except Error Encoding := do
  nameAll (← (Text.lines file).foldlM addLine ⟨.empty, .empty⟩)

/-- The line of a clause. -/
def clauseLine (c : Clause) : String :=
  String.intercalate " " (c.toList.map toString ++ ["0"])

/-- The lines of a file: the names, the counts, and the clauses. -/
def fileLines (e : Encoding) : List String :=
  (e.numbering.entries.map fun (index, name) => s!"c {index} {name}") ++
    [s!"p cnf {max (e.clauses.maxIndex : Int) e.numbering.maxIndex} {e.clauses.size}"] ++
    e.clauses.toList.map clauseLine

/-- The text of a file. -/
def write (e : Encoding) : String := String.join ((fileLines e).map (· ++ "\n"))

end ClauseForm.Dimacs
