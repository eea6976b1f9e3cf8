import Complementarity.Binary.Convert
import Complementarity.Scalar.Basic

/-!
# The three scalar types

Exact rationals, binary64 and binary32 numbers.  The floating-point instances use the operations of
the format itself, one rounding for each operation.
-/

namespace Complementarity

/-- The number of binary digits of a natural number; zero has none. -/
def bitLength (n : Nat) : Nat := if n = 0 then 0 else n.log2 + 1

/-- Exact rationals.  Every value is finite, and the size grows with numerator and denominator. -/
instance : Scalar Rat where
  zero := 0
  one := 1
  decLt := inferInstance
  decLe := inferInstance
  isZero x := decide (x = 0)
  isFinite _ := true
  isDivisor x := decide (x ≠ 0)
  bits x := bitLength x.num.natAbs + bitLength x.den
  ofDouble? := Binary.ratOfDouble?
  toDouble := Binary.doubleOfRat

/-- Binary64 numbers. -/
instance : Scalar Float where
  decLt := inferInstance
  decLe := inferInstance
  isZero x := x == 0
  isFinite x := x.isFinite
  isDivisor _ := true
  bits _ := 64
  ofDouble? x := if x.isFinite then some x else none
  toDouble x := x

/-- Binary32 numbers.  A binary64 number is rounded, and refused if the result is not finite. -/
instance : Scalar Float32 where
  decLt := inferInstance
  decLe := inferInstance
  isZero x := x == 0
  isFinite x := x.isFinite
  isDivisor _ := true
  bits _ := 32
  ofDouble? x :=
    let rounded := Binary.singleOfDouble x
    if rounded.isFinite then some rounded else none
  toDouble := Binary.doubleOfSingle

end Complementarity
