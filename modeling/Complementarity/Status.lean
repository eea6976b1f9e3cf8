/-!
# Results of a solve

How a solve ended, and what it cost.
-/

namespace Complementarity

/-- How a solve ended. -/
inductive Status where
  /-- No entry of `q` is negative: `w = q`, `z = 0` is a solution. -/
  | trivialSolution
  /-- The artificial variable has left the basis. -/
  | nontrivialSolution
  /-- No row blocks the driving variable: the method has run into a ray. -/
  | noSolution
  /-- The budget is spent, or the last basic values are not finite. -/
  | failedToConverge
  deriving DecidableEq, Repr

namespace Status

/-- Whether the point that goes with the status is a solution. -/
def isSolved : Status → Bool
  | trivialSolution | nontrivialSolution => true
  | noSolution | failedToConverge => false

/-- The name of a status in a report. -/
def text : Status → String
  | trivialSolution => "Trivial Solution"
  | nontrivialSolution => "Nontrivial Solution"
  | noSolution => "No Solution"
  | failedToConverge => "Failed To Converge"

end Status

/-- What a solve cost. -/
structure Cost where
  /-- Iterations of the pivoting loop. -/
  iterations : Nat := 0
  /-- Pivots, the first one on the artificial variable included. -/
  pivots : Nat := 0
  /-- The size in bits of the largest entry seen, if sizes were recorded. -/
  largestBits : Option Nat := none
  deriving DecidableEq, Repr

end Complementarity
