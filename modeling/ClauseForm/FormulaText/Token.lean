import ClauseForm.Value

/-!
The tokens of written formulas, and how a text is cut into them.

Space, tab, carriage return and line feed may stand between tokens and are dropped.  At each place
the longest token is taken, so `<=>` is one token and not `<=` followed by `>`.
-/

namespace ClauseForm

/-- The smallest pieces of a written formula. -/
inductive Token where
  | verum
  | falsum
  | name (text : String)
  /-- Digits, with a minus sign in front if the number is negative. -/
  | numeral (text : String)
  | negation
  | conjunction
  | disjunction
  | implication
  | equivalence
  | comparison (c : Comparison)
  | plus
  | times
  | opening
  | closing
deriving DecidableEq

namespace Token

/-- The characters that may stand between tokens. -/
def isLayout (c : Char) : Bool := c == ' ' || c == '\t' || c == '\r' || c == '\n'

/-- The characters with which a name may begin that is written without quotes. -/
def isNameStart (c : Char) : Bool := c.isAlpha || c == '_' || c == '@'

/-- The characters that may follow in a name that is written without quotes. -/
def isNamePart (c : Char) : Bool := c.isAlphanum || c == '_' || c == '.' || c == '@'

/-- Decides whether a name can be written without quotes. -/
def isPlainName : List Char → Bool
  | [] => false
  | c :: cs => isNameStart c && cs.all isNamePart

/-- The first token of a text that begins with none of the layout characters, and the text after
it. -/
def first? : List Char → Option (Token × List Char)
  | '$' :: 't' :: 'r' :: 'u' :: 'e' :: rest => some (verum, rest)
  | '$' :: 'f' :: 'a' :: 'l' :: 's' :: 'e' :: rest => some (falsum, rest)
  | '~' :: rest => some (negation, rest)
  | '&' :: rest => some (conjunction, rest)
  | '|' :: rest => some (disjunction, rest)
  | '+' :: rest => some (plus, rest)
  | '*' :: rest => some (times, rest)
  | '(' :: rest => some (opening, rest)
  | ')' :: rest => some (closing, rest)
  | '<' :: '=' :: '>' :: rest => some (equivalence, rest)
  | '<' :: '=' :: rest => some (comparison .lessOrEqual, rest)
  | '<' :: rest => some (comparison .less, rest)
  | '>' :: '=' :: rest => some (comparison .greaterOrEqual, rest)
  | '>' :: rest => some (comparison .greater, rest)
  | '=' :: '>' :: rest => some (implication, rest)
  | '=' :: rest => some (comparison .equal, rest)
  | '!' :: '=' :: rest => some (comparison .notEqual, rest)
  | '\x22' :: rest =>
    match rest.dropWhile (· != '\x22') with
    | [] => none
    | _ :: after => some (name (String.ofList (rest.takeWhile (· != '\x22'))), after)
  | '-' :: rest =>
    match rest.takeWhile Char.isDigit with
    | [] => none
    | digits => some (numeral (String.ofList ('-' :: digits)), rest.dropWhile Char.isDigit)
  | c :: rest =>
    if c.isDigit then
      some (numeral (String.ofList (c :: rest.takeWhile Char.isDigit)),
        rest.dropWhile Char.isDigit)
    else if isNameStart c then
      some (name (String.ofList (c :: rest.takeWhile isNamePart)), rest.dropWhile isNamePart)
    else
      none
  | [] => none

private theorem length_dropWhile_le (p : Char → Bool) (cs : List Char) :
    (cs.dropWhile p).length ≤ cs.length :=
  (List.dropWhile_sublist p).length_le

/-- Taking a token shortens the text. -/
theorem length_of_first? {cs rest : List Char} {t : Token} (h : first? cs = some (t, rest)) :
    rest.length < cs.length := by
  unfold first? at h
  split at h <;> simp only [List.length_cons, List.length_nil] <;> grind [length_dropWhile_le]

/-- Cuts a text into tokens behind those already found, the latest in front. -/
def scanFrom : List Char → List Token → Option (List Token)
  | [], found => some found.reverse
  | c :: cs, found =>
    if isLayout c then
      scanFrom cs found
    else
      match h : first? (c :: cs) with
      | none => none
      | some (t, rest) =>
        have := length_of_first? h
        scanFrom rest (t :: found)
termination_by cs => cs.length
decreasing_by
  · simp
  · assumption

/-- The tokens of a text, unless some part of it is no token. -/
def scan (text : List Char) : Option (List Token) := scanFrom text []

end Token

end ClauseForm
