/-!
# Unsigned decimal numerals

A numeral is a nonempty run of the ASCII digits, optionally behind a plus sign.  Leading zeros are
allowed; a value of `2 ^ 64` or more is refused.
-/

namespace Complementarity.Text

/-- The value of a digit. -/
def digitValue? (c : Char) : Option Nat :=
  if '0' ≤ c ∧ c ≤ '9' then some (c.toNat - '0'.toNat) else none

/-- The value of a run of digits, read after `value`. -/
def digitsValue? (value : Nat) : List Char → Option Nat
  | [] => some value
  | c :: cs => (digitValue? c).bind fun d => digitsValue? (10 * value + d) cs

/-- The number that a numeral stands for. -/
def numeralValue? (cs : List Char) : Option Nat :=
  let digits := match cs with
    | '+' :: rest => rest
    | _ => cs
  if digits.isEmpty then none
  else (digitsValue? 0 digits).filter (· < UInt64.size)

example : numeralValue? "+007".toList = some 7 ∧ numeralValue? "+".toList = none ∧
    numeralValue? "-1".toList = none ∧
    numeralValue? "18446744073709551616".toList = none := by decide

end Complementarity.Text
