import Complementarity.Binary.Format

/-!
# Conversions between exact numbers and floating-point numbers

Each conversion is one exact reading (`Binary.Format.decode`) or one correct rounding
(`Binary.Format.roundQuotient`) of the bit pattern; nothing depends on a hardware conversion.
-/

namespace Complementarity.Binary

/-! ## From exact numbers -/

/-- The binary64 number nearest to a natural number; infinite if that is out of range. -/
def doubleOfNat (n : Nat) : Float :=
  Float.ofBits (UInt64.ofNat (binary64.roundMagnitude n 1))

/-- The binary64 number nearest to an integer. -/
def doubleOfInt (i : Int) : Float :=
  Float.ofBits (UInt64.ofNat (binary64.roundQuotient (decide (i < 0)) i.natAbs 1))

/-- The binary32 number nearest to an integer. -/
def singleOfInt (i : Int) : Float32 :=
  Float32.ofBits (UInt32.ofNat (binary32.roundQuotient (decide (i < 0)) i.natAbs 1))

/-- The quotient of the two binary64 numbers nearest to numerator and denominator.  Both are
rounded before the division is, so the result is the nearest number only if both are exact. -/
def doubleOfRat (r : Rat) : Float := doubleOfInt r.num / doubleOfNat r.den

/-! ## Reading and changing the format -/

/-- What a binary64 number stands for. -/
def datumOfDouble (x : Float) : Datum := binary64.decode x.toBits.toNat

/-- What a binary32 number stands for. -/
def datumOfSingle (x : Float32) : Datum := binary32.decode x.toBits.toNat

/-- The exact value of a decoded number, if it is finite. -/
def Datum.toRat? : Datum → Option Rat
  | .finite negative m e =>
    let magnitude : Rat := (m * Nat.pow 2 e.toNat : Nat) / (Nat.pow 2 (-e).toNat : Nat)
    some (if negative then -magnitude else magnitude)
  | _ => none

/-- The exact value of a finite binary64 number. -/
def ratOfDouble? (x : Float) : Option Rat := (datumOfDouble x).toRat?

/-- The binary32 number nearest to a binary64 number. -/
def singleOfDouble (x : Float) : Float32 :=
  Float32.ofBits (UInt32.ofNat ((datumOfDouble x).encode binary32))

/-- A binary32 number as a binary64 number; always exact. -/
def doubleOfSingle (x : Float32) : Float :=
  Float.ofBits (UInt64.ofNat ((datumOfSingle x).encode binary64))

/-- The least signed 64-bit integer. -/
def leastInt64 : Int := -9223372036854775808

/-- The greatest signed 64-bit integer. -/
def greatestInt64 : Int := 9223372036854775807

/-- Truncation of a binary64 number to a signed 64-bit integer.  Out of range the nearest end of
the range is taken, and a NaN becomes zero. -/
def truncateToInt64 (x : Float) : Int :=
  match datumOfDouble x with
  | .nan => 0
  | .infinite negative => if negative then leastInt64 else greatestInt64
  | .finite negative m e =>
    let magnitude : Int := (m * Nat.pow 2 e.toNat / Nat.pow 2 (-e).toNat : Nat)
    max leastInt64 (min (if negative then -magnitude else magnitude) greatestInt64)

end Complementarity.Binary
