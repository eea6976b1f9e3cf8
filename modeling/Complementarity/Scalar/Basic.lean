/-!
# Scalars

The numbers that a tableau can hold.  Pivoting needs the field operations, the two order relations
and a test for zero; the rest of the class is what surrounds pivoting: a test for usable data, a
size in bits, and conversion from and to binary64.

Nothing is required of the operations.  Exact rationals satisfy the laws of an ordered field,
floating-point numbers do not, and the solver is one program for both; a statement that needs
the laws is a statement about `Rat`.
-/

namespace Complementarity

/-- Arithmetic, comparison, size and conversion of the entries of a problem. -/
class Scalar (α : Type) extends Zero α, One α, Add α, Sub α, Mul α, Div α, Neg α, LT α, LE α where
  decLt : DecidableLT α
  decLe : DecidableLE α
  /-- Equality with zero; a floating-point zero of either sign counts. -/
  isZero : α → Bool
  /-- Whether the value may be used as problem data: neither infinite nor a NaN. -/
  isFinite : α → Bool
  /-- Whether a division by the value has a result. -/
  isDivisor : α → Bool
  /-- The size of the representation in bits. -/
  bits : α → Nat
  /-- The value of a finite binary64 number, if the scalar type has a finite value for it. -/
  ofDouble? : Float → Option α
  /-- The value as a binary64 number. -/
  toDouble : α → Float

attribute [reducible, instance] Scalar.decLt Scalar.decLe

namespace Scalar

variable {α : Type} [Scalar α]

/-- The absolute value.  The sign of a zero is kept, since no zero is below zero. -/
def abs (x : α) : α := if x < 0 then -x else x

/-- The least of the entries, zero if there are none.  A later entry replaces an earlier one only
if it is strictly smaller. -/
def minimum : List α → α
  | [] => 0
  | first :: rest => rest.foldl (fun least x => if x < least then x else least) first

end Scalar

end Complementarity
