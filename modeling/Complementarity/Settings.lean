import Complementarity.Environment

/-!
# Solver settings

The settings of a solver, their defaults, and the iteration budget they allow.
-/

namespace Complementarity

/-- What a caller may choose about a solve. -/
structure Settings where
  /-- The greatest number of iterations; `none` stands for two more than the dimension. -/
  maxIter : Option Nat := none
  /-- Whether the largest tableau entry is recorded. -/
  recordSizes : Bool := false
  /-- Whether pivots and failures are reported. -/
  verbose : Bool := false
  deriving DecidableEq, Repr

namespace Settings

/-- The default settings, with the iteration limit of the environment if it states one. -/
def ofEnvironment (env : Environment) : Settings where
  maxIter := env.maxIter.bind Environment.positive?

/-- The number of iterations allowed in dimension `n`. -/
def budget (s : Settings) (n : Nat) : Nat := s.maxIter.getD (n + 2)

/-- A limit of zero iterations is not usable. -/
def isUsable (s : Settings) : Bool := s.maxIter ≠ some 0

end Settings

end Complementarity
