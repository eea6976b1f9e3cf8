import Complementarity.Dense
import Complementarity.Scalar.Basic
import Complementarity.Settings

/-!
# Linear complementarity problems

A problem asks for vectors `w` and `z` with `w = q + M z`, `w ≥ 0`, `z ≥ 0` and `wᵀ z = 0`.
`Problem α` holds the data as a caller gives them, with a matrix of any shape; `Lcp α n` is a
problem whose shape is right by its type.  `Problem.sized` leads from one to the other.  The first
check that fails, in a fixed order, is the error:

1. there is at least one row;
2. the matrix has as many rows as `q` has entries, and
3. as many columns;
4. every entry of `q`, and then
5. every entry of the matrix, row by row, is finite;
6. the settings allow at least one iteration (`InputError.ofSettings?`).
-/

namespace Complementarity

/-- The side on which a matrix does not fit. -/
inductive Axis where
  | rows
  | columns
  deriving DecidableEq, Repr

/-- What is wrong with a problem or with the settings. -/
inductive InputError where
  | emptyProblem
  | dimensionMismatch (axis : Axis) (expected actual : Nat)
  | nonFiniteVector (row : Nat)
  | nonFiniteMatrix (row column : Nat)
  | noIterations
  deriving DecidableEq, Repr

namespace InputError

/-- The text of an error. -/
def message : InputError → String
  | emptyProblem => "Empty problem: dimension must be at least 1"
  | dimensionMismatch axis expected actual =>
    let side := match axis with
      | .rows => "rows"
      | .columns => "columns"
    s!"Dimension mismatch in M {side}: expected {expected}, got {actual}"
  | nonFiniteVector row => s!"Non-finite entry in q at ({row}, 0)"
  | nonFiniteMatrix row column => s!"Non-finite entry in M at ({row}, {column})"
  | noIterations => "Invalid settings: max_iter must be positive"

/-- The error of settings that allow no iteration. -/
def ofSettings? (s : Settings) : Option InputError := if s.isUsable then none else some noIterations

end InputError

/-- A problem of dimension `n`. -/
structure Lcp (α : Type) (n : Nat) where
  q : Vector α n
  m : Dense α n n

/-- A pair of vectors: a candidate for a solution. -/
structure Point (α : Type) (n : Nat) where
  w : Vector α n
  z : Vector α n
  deriving DecidableEq

/-- The pair of zero vectors. -/
def Point.zero (α : Type) [Zero α] (n : Nat) : Point α n :=
  ⟨Vector.replicate n 0, Vector.replicate n 0⟩

/-- A problem as it is given. -/
structure Problem (α : Type) where
  q : Array α
  m : Grid α

namespace Lcp

variable {α : Type} [Scalar α] {n : Nat}

/-- The first entry that is not finite, `q` before the matrix and the matrix row by row. -/
def firstNonFinite? (p : Lcp α n) : Option InputError :=
  match (List.finRange n).find? fun r => !Scalar.isFinite (p.q.get r) with
  | some r => some (.nonFiniteVector r)
  | none =>
    (List.finRange n).findSome? fun r =>
      ((List.finRange n).find? fun c => !Scalar.isFinite (p.m.entry r c)).map fun c =>
        .nonFiniteMatrix r c

/-- What is wrong with the entries of a problem whose shape is right.  The empty problem is refused
here too, since a dimension in a type may be zero. -/
def fault? (p : Lcp α n) : Option InputError :=
  if n = 0 then some .emptyProblem else p.firstNonFinite?

end Lcp

namespace Problem

variable {α : Type}

/-- The dimension, which is that of `q`. -/
def dim (p : Problem α) : Nat := p.q.size

/-- The vector `q` with its length in the type. -/
def constants (p : Problem α) : Vector α p.dim := ⟨p.q, rfl⟩

/-- A problem from `q` and the rows of the matrix, each of which must be as long as `q`. -/
def ofRows (q : Array α) (rows : Array (Array α)) : Except InputError (Problem α) :=
  if rows.size = q.size then
    match hfind : rows.find? fun row => row.size ≠ q.size with
    | some row => .error (.dimensionMismatch .columns q.size row.size)
    | none =>
      have hsize : ∀ row ∈ rows, row.size = q.size := by simpa using hfind
      .ok ⟨q, rows.size, q.size, Dense.ofFn fun i j =>
        have hj : j.val < rows[i.val].size := by
          rw [hsize _ (Array.getElem_mem i.isLt)]
          exact j.isLt
        rows[i.val][j.val]⟩
  else .error (.dimensionMismatch .rows q.size rows.size)

/-- The problem that holds the given data. -/
def ofLcp {n : Nat} (p : Lcp α n) : Problem α := ⟨p.q.toArray, Grid.ofDense p.m⟩

/-- The problem with its shape in the type, or what is wrong with the shape. -/
def sized (p : Problem α) : Except InputError (Lcp α p.dim) :=
  if p.dim = 0 then .error .emptyProblem
  else if hrows : p.m.rows = p.dim then
    if hcols : p.m.cols = p.dim then .ok ⟨p.constants, p.m.toDense hrows hcols⟩
    else .error (.dimensionMismatch .columns p.dim p.m.cols)
  else .error (.dimensionMismatch .rows p.dim p.m.rows)

variable [Scalar α]

/-- The first thing that is wrong with the data: with their shape, or else with an entry. -/
def fault? (p : Problem α) : Option InputError :=
  match p.sized with
  | .error error => some error
  | .ok sized => sized.fault?

end Problem

end Complementarity
