import Complementarity.Rounding

/-!
# Binary interchange formats

A format is given by its precision and the width of its exponent field.  `Format.decode` reads a
bit pattern as the exact value `±m·2^e`, an infinity or a NaN; `Format.roundMagnitude` goes the
other way, from an exact quotient of natural numbers to the pattern of the nearest value of the
format (ties to even, too large a quotient to infinity).

All finite patterns of one sign are consecutive integers in the order of their values, so the
pattern of a rounded significand `m` at place `2^q` is `(q - emin)·2^(p-1) + m`, also where
rounding carries into the next binade and also among the subnormal numbers.
-/

namespace Complementarity.Binary

/-- A binary format: `precision` significant bits, the leading one included, and an exponent field
of `exponentBits` bits. -/
structure Format where
  precision : Nat
  exponentBits : Nat
  deriving DecidableEq, Repr

/-- The 64-bit format: 53 significant bits, 11 exponent bits. -/
def binary64 : Format := ⟨53, 11⟩

/-- The 32-bit format: 24 significant bits, 8 exponent bits. -/
def binary32 : Format := ⟨24, 8⟩

/-- What a bit pattern stands for. -/
inductive Datum where
  /-- The number `±mantissa · 2 ^ exponent`. -/
  | finite (negative : Bool) (mantissa : Nat) (exponent : Int)
  | infinite (negative : Bool)
  | nan
  deriving DecidableEq, Repr

namespace Format

/-- The exponent of the last place of the smallest numbers. -/
def minExponent (F : Format) : Int :=
  3 - (Nat.pow 2 (F.exponentBits - 1) : Nat) - F.precision

/-- The number of significands that share one exponent field. -/
def binade (F : Format) : Nat := Nat.pow 2 (F.precision - 1)

/-- The pattern of positive infinity: all exponent bits set, all fraction bits clear. -/
def infinity (F : Format) : Nat := (Nat.pow 2 F.exponentBits - 1) * F.binade

/-- The pattern of negative zero: the sign bit alone. -/
def signBit (F : Format) : Nat := Nat.pow 2 F.exponentBits * F.binade

/-- Read a bit pattern. -/
def decode (F : Format) (bits : Nat) : Datum :=
  let negative := decide (F.signBit ≤ bits)
  let magnitude := bits % F.signBit
  let field := magnitude / F.binade
  let fraction := magnitude % F.binade
  if magnitude = F.infinity then .infinite negative
  else if F.infinity < magnitude then .nan
  else if field = 0 then .finite negative fraction F.minExponent
  else .finite negative (F.binade + fraction) (F.minExponent + (field - 1 : Nat))

/-- The binary exponent of a positive quotient: the `k` with `2 ^ k ≤ num / den < 2 ^ (k + 1)`. -/
def quotientExponent (num den : Nat) : Int :=
  let guess : Int := (num.log2 : Int) - den.log2
  if num * Nat.pow 2 (-guess).toNat < den * Nat.pow 2 guess.toNat then guess - 1 else guess

/-- The pattern of the value of the format that is nearest to `num / den`. -/
def roundMagnitude (F : Format) (num den : Nat) : Nat :=
  if num = 0 then 0
  else
    let place := max (quotientExponent num den - (F.precision - 1 : Nat)) F.minExponent
    let significand :=
      divNearestEven (num * Nat.pow 2 (-place).toNat) (den * Nat.pow 2 place.toNat)
    min ((place - F.minExponent).toNat * F.binade + significand) F.infinity

/-- The pattern of `±num / den`, rounded to nearest. -/
def roundQuotient (F : Format) (negative : Bool) (num den : Nat) : Nat :=
  (if negative then F.signBit else 0) + F.roundMagnitude num den

end Format

/-- The pattern of a decoded value in another format, rounded to nearest.  A NaN becomes the quiet
NaN of the format. -/
def Datum.encode (F : Format) : Datum → Nat
  | .finite negative m e =>
    F.roundQuotient negative (m * Nat.pow 2 e.toNat) (Nat.pow 2 (-e).toNat)
  | .infinite negative => (if negative then F.signBit else 0) + F.infinity
  | .nan => F.infinity + F.binade / 2

example : binary64.minExponent = -1074 ∧ binary32.minExponent = -149 := by decide

end Complementarity.Binary
