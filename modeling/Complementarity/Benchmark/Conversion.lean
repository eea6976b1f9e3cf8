import Complementarity.Benchmark.Generated
import Complementarity.Binary.Convert
import Complementarity.Decimal.Shortest

/-!
# Converting integer data

Integer data are converted to a scalar type by way of binary64.  An entry is refused

* if truncating the nearest binary64 number does not give the integer back;
* if the scalar type has no value for that number;
* if the value, as a binary64 number, is another one.

Truncation is to 64 bits with sign and ends at the largest such number, so the bounds of that range
belong to the rule.  The entries of `q` come first and then the matrix row by row; the first entry
that is refused is the error.
-/

namespace Complementarity.Benchmark

/-- Why data cannot be converted. -/
inductive ConversionError where
  | inexact (value : Int)
  | unavailable (value : Int)
  | unfaithful (value : Int) (back : Float)
  /-- The matrix is smaller than `q` requires. -/
  | missingEntry (row column : Nat)

/-- The text of an error in the data with a given label. -/
def ConversionError.message (label : String) : ConversionError → String
  | inexact value => s!"{label}: {value} is not exact in f64"
  | unavailable value => s!"{label}: {value} has no exact value"
  | unfaithful value back =>
    let text := Decimal.shortest back
    s!"{label}: {value} does not round-trip ({text})"
  | missingEntry row column => s!"{label}: no entry at ({row}, {column})"

/-- An integer as a scalar. -/
def convertEntry (α : Type) [Scalar α] (value : Int) : Except ConversionError α :=
  let x := Binary.doubleOfInt value
  if Binary.truncateToInt64 x ≠ value then .error (.inexact value)
  else
    match (Scalar.ofDouble? x : Option α) with
    | none => .error (.unavailable value)
    | some r =>
      let back := Scalar.toDouble r
      if back == x then .ok r else .error (.unfaithful value back)

/-- Convert a vector and a matrix that is given entry by entry. -/
def convertData (α : Type) [Scalar α] {n : Nat} (q : Vector Int n)
    (entry : Fin n → Fin n → Except ConversionError Int) : Except ConversionError (Lcp α n) := do
  let q ← q.mapM (convertEntry α)
  let rows ← Vector.ofFnM fun i => Vector.ofFnM fun j => do convertEntry α (← entry i j)
  return ⟨q, ⟨rows⟩⟩

/-- Convert the data of a problem of known shape. -/
def convert (α : Type) [Scalar α] {n : Nat} (p : Lcp Int n) :
    Except ConversionError (Lcp α n) :=
  convertData α p.q fun i j => .ok (p.m.entry i j)

/-- Convert `q`, and as much of the matrix as belongs to its dimension. -/
def convertProblem (α : Type) [Scalar α] (p : Problem Int) :
    Except ConversionError (Lcp α p.dim) :=
  convertData α p.constants fun i j =>
    if h : i.val < p.m.rows ∧ j.val < p.m.cols then
      .ok (p.m.cells.entry ⟨i.val, h.1⟩ ⟨j.val, h.2⟩)
    else .error (.missingEntry i j)

end Complementarity.Benchmark
