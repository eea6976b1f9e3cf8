import Complementarity.Metrics
import Complementarity.Solver

/-!
# Solving with verification

A solve whose result is checked against the problem.  Only a claimed solution is checked; a
solution that fails the check is reported.
-/

namespace Complementarity

/-- A result, and whether it has stood the check. -/
structure Verified (α : Type) (n : Nat) where
  outcome : Outcome α n
  accepted : Bool

namespace Verified

variable {α : Type} [Scalar α] {n : Nat}

/-- Check a result against its problem. -/
def ofOutcome (p : Lcp α n) (tolerance : α) (outcome : Outcome α n) : Verified α n :=
  if outcome.status.isSolved then
    let metrics := p.metrics outcome.point
    if metrics.isWithin tolerance then ⟨outcome, true⟩
    else
      let report := Event.rejected (Scalar.toDouble metrics.residual)
        (Scalar.toDouble metrics.complementarity) (Scalar.toDouble metrics.minW)
        (Scalar.toDouble metrics.minZ)
      ⟨{ outcome with log := outcome.log ++ [report] }, false⟩
  else ⟨outcome, true⟩

end Verified

namespace Solver

variable {α : Type} [Scalar α] {n : Nat}

/-- Solve a problem of known shape and check the result. -/
def verifySized (s : Solver α) (p : Lcp α n) (tolerance : α) :
    Except InputError (Verified α n) × Solver α :=
  let (answer, next) := s.solveSized p
  (answer.map (.ofOutcome p tolerance), next)

/-- Solve a problem and check the result. -/
def verify (s : Solver α) (p : Problem α) (tolerance : α) :
    Except InputError (Verified α p.dim) × Solver α :=
  match p.sized with
  | .error error => (.error error, s)
  | .ok sized => s.verifySized sized tolerance

end Solver

/-! ## The tolerance for binary64 data -/

/-- The largest of one and the absolute values of the entries.  A NaN counts for nothing. -/
def magnitude (entries : List Float) : Float :=
  entries.foldl (fun largest x => if largest < x.abs then x.abs else largest) 1

/-- The tolerance for data with the given entries, in proportion to their magnitude. -/
def toleranceFor (entries : List Float) : Float := 1e-8 * magnitude entries

/-- All entries of a problem. -/
def Problem.entries {α : Type} (p : Problem α) : List α := p.q.toList ++ p.m.cells.entries

/-- All entries of a problem of known shape. -/
def Lcp.entries {α : Type} {n : Nat} (p : Lcp α n) : List α := p.q.toList ++ p.m.entries

end Complementarity
