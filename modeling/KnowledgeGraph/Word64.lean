/-!
# Counts written in decimal

Counts are natural numbers below `2 ^ 64`. They are read from decimal digits, with an optional plus
sign and any number of leading zeros, and a text that is none is refused with the first reason met
from the left.
-/

namespace KnowledgeGraph.Word64

/-- Why a text is no count. -/
inductive Fault where
  /-- There is no character at all. -/
  | empty
  /-- Some character is no digit, or a sign has no digits. -/
  | invalidDigit
  /-- The digits exceed 64 bits. -/
  | tooLarge
  deriving DecidableEq

/-- The reason in words. -/
def Fault.message : Fault → String
  | .empty => "cannot parse integer from empty string"
  | .invalidDigit => "invalid digit found in string"
  | .tooLarge => "number too large to fit in target type"

/-- Appends the digits of a text to a number, from the left. -/
def appendDigits : Nat → List Char → Except Fault Nat
  | value, [] => .ok value
  | value, c :: rest =>
    if '0' ≤ c ∧ c ≤ '9' then
      let next := value * 10 + (c.toNat - '0'.toNat)
      if next < Nat.pow 2 64 then appendDigits next rest else .error .tooLarge
    else .error .invalidDigit

/-- The count that a text denotes. -/
def parse (text : String) : Except Fault Nat :=
  match text.toList with
  | [] => .error .empty
  | ['+'] => .error .invalidDigit
  | '+' :: digits => appendDigits 0 digits
  | digits => appendDigits 0 digits

end KnowledgeGraph.Word64
