/-!
# Reading natural numbers

A numeral is an optional plus sign and digits of a base, and its value has to stay below a limit.
The refusals come in reading order: the first character that is no digit, or the first digit that
passes the limit.
-/

namespace TreeWatch

inductive NumeralError where
  | empty
  | invalidDigit
  | tooLarge
  deriving DecidableEq, Repr

def NumeralError.message : NumeralError → String
  | .empty => "cannot parse integer from empty string"
  | .invalidDigit => "invalid digit found in string"
  | .tooLarge => "number too large to fit in target type"

namespace Numeral

/-- The value of a digit in a base of at most thirty-six. -/
def digit? (base : Nat) (c : Char) : Option Nat :=
  let value? :=
    if '0' ≤ c ∧ c ≤ '9' then some (c.toNat - 48)
    else if 'a' ≤ c ∧ c ≤ 'z' then some (c.toNat - 87)
    else if 'A' ≤ c ∧ c ≤ 'Z' then some (c.toNat - 55)
    else none
  value?.filter (· < base)

/-- Reads on from `value`, refusing what reaches `limit`. -/
def readDigits (base limit : Nat) : List Char → Nat → Except NumeralError Nat
  | [], value => .ok value
  | c :: rest, value =>
    match digit? base c with
    | none => .error .invalidDigit
    | some digit =>
      if value * base + digit < limit then readDigits base limit rest (value * base + digit)
      else .error .tooLarge

/-- Reads a whole text as a number below `limit`. A sign needs a digit after it. -/
def read (base limit : Nat) : List Char → Except NumeralError Nat
  | [] => .error .empty
  | ['+'] => .error .invalidDigit
  | '+' :: rest => readDigits base limit rest 0
  | text => readDigits base limit text 0

end Numeral

end TreeWatch
