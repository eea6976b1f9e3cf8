import Complementarity.Binary.Convert

/-!
# Decimal text with a fixed number of places

A finite binary64 number is an exact fraction, so its decimal text is a matter of integers: scale
by a power of ten, round to the nearest integer with ties to even, and set the point.

* `fixed 2` writes `3.25`, `-0.00`;
* `scientific 3` writes `1.106e-4`, `1.600e1`, `0.000e0`: one digit before the point, and the
  exponent in its shortest form.

Infinities and NaNs are written as words.
-/

namespace Complementarity.Decimal

open Complementarity.Binary

/-- The sign of a number that is written with one. -/
def minus (negative : Bool) : String := if negative then "-" else ""

/-- The digits of `n` with the point set before the last `places` of them, and at least one digit
in front of it. -/
def setPoint (places n : Nat) : String :=
  if places = 0 then toString n
  else
    let digits := (toString n).toList
    let padded := List.replicate (places + 1 - digits.length) '0' ++ digits
    let whole := padded.length - places
    String.ofList (padded.take whole ++ '.' :: padded.drop whole)

/-- The numerator and denominator of the magnitude `m · 2 ^ e`. -/
def fraction (m : Nat) (e : Int) : Nat × Nat :=
  (m * Nat.pow 2 e.toNat, Nat.pow 2 (-e).toNat)

/-- A number with `places` digits after the point. -/
def fixed (places : Nat) (x : Float) : String :=
  match datumOfDouble x with
  | .nan => "NaN"
  | .infinite negative => minus negative ++ "inf"
  | .finite negative m e =>
    let (num, den) := fraction m e
    minus negative ++ setPoint places (divNearestEven (num * Nat.pow 10 places) den)

/-- The decimal exponent of a positive fraction, which is the `k` with
`10 ^ k ≤ num / den < 10 ^ (k + 1)`. -/
def decimalExponent (num den : Nat) : Int :=
  if den ≤ num then ((toString (num / den)).length : Int) - 1
  else -((toString ((den - 1) / num)).length : Int)

/-- A positive fraction as `digits · 10 ^ (k - places)`, with `places + 1` digits after rounding;
the pair of the digits and `k`. -/
def significant (places num den : Nat) : Nat × Int :=
  let k := decimalExponent num den
  let place := k - places
  let digits := divNearestEven (num * Nat.pow 10 (-place).toNat) (den * Nat.pow 10 place.toNat)
  if digits = Nat.pow 10 (places + 1) then (Nat.pow 10 places, k + 1) else (digits, k)

/-- A number with one digit before the point, `places` after it, and a decimal exponent. -/
def scientific (places : Nat) (x : Float) : String :=
  match datumOfDouble x with
  | .nan => "NaN"
  | .infinite negative => minus negative ++ "inf"
  | .finite negative m e =>
    let (num, den) := fraction m e
    let (digits, k) := if num = 0 then (0, 0) else significant places num den
    let exponent := minus (decide (k < 0)) ++ toString k.natAbs
    minus negative ++ setPoint places digits ++ "e" ++ exponent

end Complementarity.Decimal
