/-!
# Numerals

Reading a whole number from settings: an optional plus sign and ASCII digits, the value at most a
bound. The text is read from the left and the first character that fails decides the error.
-/

namespace EffectLoop.Text

/-- Why a text is not a number within the bound. -/
inductive NumeralError
  | empty
  | invalidDigit
  | tooLarge
deriving DecidableEq

/-- The text of the error. -/
def NumeralError.message : NumeralError → String
  | .empty => "cannot parse integer from empty string"
  | .invalidDigit => "invalid digit found in string"
  | .tooLarge => "number too large to fit in target type"

/-- The value of an ASCII digit. -/
def digit? (c : Char) : Option Nat :=
  if '0' ≤ c ∧ c ≤ '9' then some (c.toNat - '0'.toNat) else none

/-- Read digits after those that made `acc`. -/
def readDigits (bound acc : Nat) : List Char → Except NumeralError Nat
  | [] => .ok acc
  | c :: rest =>
    match digit? c with
    | none => .error .invalidDigit
    | some d => if acc * 10 + d ≤ bound then readDigits bound (acc * 10 + d) rest else .error .tooLarge

/-- Read a number that is at most `bound`. -/
def readNumeral (bound : Nat) : List Char → Except NumeralError Nat
  | [] => .error .empty
  | ['+'] => .error .invalidDigit
  | '+' :: rest => readDigits bound 0 rest
  | cs => readDigits bound 0 cs

/-- The largest number of a 64-bit word. -/
def maxWord : Nat := Nat.pow 2 64 - 1

end EffectLoop.Text
