/-!
Reading integers from decimal text: an optional sign and at least one digit, of which the first may
be zero.
-/

namespace ClauseForm.Text

/-- Why a text is no integer within the bounds. -/
inductive DecimalError where
  | empty
  | invalidDigit
  | tooLarge
  | tooSmall
deriving DecidableEq

/-- The message for a text that is no integer within the bounds. -/
def DecimalError.message : DecimalError → String
  | empty => "cannot parse integer from empty string"
  | invalidDigit => "invalid digit found in string"
  | tooLarge => "number too large to fit in target type"
  | tooSmall => "number too small to fit in target type"

/-- Reads digits behind those that make up `value`.  The digits are added for a positive number and
subtracted for a negative one, and the first thing that goes wrong is reported. -/
def readDigits (least greatest : Int) (negative : Bool) : List Char → Int → Except DecimalError Int
  | [], value => .ok value
  | c :: cs, value =>
    if c.isDigit then
      let digit : Int := c.toNat - '0'.toNat
      let value := if negative then 10 * value - digit else 10 * value + digit
      if greatest < value then .error .tooLarge
      else if value < least then .error .tooSmall
      else readDigits least greatest negative cs value
    else
      .error .invalidDigit

/-- The integer that a text stands for, between two bounds. -/
def readInteger (least greatest : Int) : List Char → Except DecimalError Int
  | [] => .error .empty
  | ['+'] | ['-'] => .error .invalidDigit
  | '+' :: digits => readDigits least greatest false digits 0
  | '-' :: digits => readDigits least greatest true digits 0
  | digits => readDigits least greatest false digits 0

/-- The integer of 32 bits that a text stands for. -/
def readInt32 (cs : List Char) : Except DecimalError Int :=
  readInteger (-2147483648) 2147483647 cs

end ClauseForm.Text
