import Complementarity.Binary.Convert
import Complementarity.Decimal.Fixed
import Complementarity.Status

/-!
# Reports on a family

`Tally` counts what became of the solves with one scalar type, `Report` puts the counts
of both scalar types together, and `Report.lines` is the text.
-/

namespace Complementarity.Benchmark

/-- Counts of results, pivots and nanoseconds. -/
structure Tally where
  trivial : Nat := 0
  nontrivial : Nat := 0
  noSolution : Nat := 0
  failed : Nat := 0
  rejections : Nat := 0
  totalPivots : Nat := 0
  maxPivots : Nat := 0
  largestBits : Option Nat := none
  elapsed : Nat := 0
  deriving DecidableEq, Repr

/-- A solve, with the time it took in nanoseconds. -/
structure Trial where
  status : Status
  cost : Cost
  accepted : Bool
  elapsed : Nat
  deriving DecidableEq, Repr

namespace Tally

/-- Count a solve by its status. -/
def count (s : Tally) : Status → Tally
  | .trivialSolution => { s with trivial := s.trivial + 1 }
  | .nontrivialSolution => { s with nontrivial := s.nontrivial + 1 }
  | .noSolution => { s with noSolution := s.noSolution + 1 }
  | .failedToConverge => { s with failed := s.failed + 1 }

/-- The statistics with one more solve. -/
def record (s : Tally) (trial : Trial) : Tally :=
  { s.count trial.status with
    rejections := s.rejections + if trial.accepted then 0 else 1
    totalPivots := s.totalPivots + trial.cost.pivots
    maxPivots := max s.maxPivots trial.cost.pivots
    largestBits := s.largestBits.merge max trial.cost.largestBits
    elapsed := s.elapsed + trial.elapsed }

/-- The number of solves. -/
def solves (s : Tally) : Nat := s.trivial + s.nontrivial + s.noSolution + s.failed

/-- The number of pivots of a solve, on average. -/
def averagePivots (s : Tally) : Float :=
  Binary.doubleOfNat s.totalPivots / Binary.doubleOfNat s.solves

/-- The time taken by all solves, in milliseconds: whole seconds and the fraction of a second are
rounded each before they are added. -/
def milliseconds (s : Tally) : Float :=
  let second := 1000000000
  (Binary.doubleOfNat (s.elapsed / second) +
    Binary.doubleOfNat (s.elapsed % second) / Binary.doubleOfNat second) * 1000

/-- The lines about the solves with one scalar type; there are none without a solve. -/
def lines (s : Tally) (label : String) : List String :=
  if s.solves = 0 then []
  else
    let average := Decimal.fixed 2 s.averagePivots
    let total := Decimal.fixed 3 s.milliseconds
    let each := Decimal.fixed 3 (s.milliseconds / Binary.doubleOfNat s.solves)
    let size := match s.largestBits with
      | some bits => [s!"    Largest entry: {bits} bits"]
      | none => []
    [s!"  [{label}]",
      s!"    Trivial: {s.trivial}  Nontrivial: {s.nontrivial}  No solution: {s.noSolution}" ++
        s!"  Failed: {s.failed}",
      s!"    Pivots:  avg {average}, max {s.maxPivots}"] ++ size ++
    [s!"    Verification failures: {s.rejections}",
      s!"    Solve time: {total} ms total, {each} ms/solve"]

end Tally

/-- What became of the problems of one family. -/
structure Report where
  family : String
  instances : Nat := 0
  float : Tally := {}
  exact : Tally := {}
  /-- The problems on which the two scalar types disagree. -/
  disagreements : List String := []
  deriving DecidableEq, Repr

/-- The line that separates parts of a report. -/
def rule : String := String.ofList (List.replicate 60 '=')

namespace Report

/-- The number of solutions that failed verification. -/
def rejections (r : Report) : Nat := r.float.rejections + r.exact.rejections

/-- The lines about disagreements, if both scalar types were used. -/
def disagreementLines (r : Report) : List String :=
  if r.float.solves = 0 ∨ r.exact.solves = 0 then []
  else
    s!"  Status disagreements: {r.disagreements.length}" ::
      r.disagreements.map fun d => s!"    {d}"

/-- The lines of a report. -/
def lines (r : Report) : List String :=
  ["", rule, s!"Family: {r.family} ({r.instances} instances)", rule] ++
    r.float.lines "f64" ++ r.exact.lines "rational" ++ r.disagreementLines

end Report

end Complementarity.Benchmark
