import Complementarity.Problem
import Complementarity.Run.Journal
import Complementarity.Run.State
import Complementarity.Status

/-!
# Complementary pivoting

`solve w = q + M z`, `w, z ≥ 0`, `wᵀ z = 0` by Lemke's method.  The problem is augmented by an
artificial variable with a column of ones and perturbed symbolically, so that the constant of row
`r` is the polynomial `q_r + ε ^ (r + 1)`.

If no perturbed constant is negative, `w = q` and `z = 0` is a solution.  Otherwise the artificial
variable enters in the row with the least constant, and every further iteration (`State.step`)
brings in the partner of the variable that has just left.  The run ends

* with a solution, when the artificial variable leaves;
* in a ray, when nothing blocks the driving variable;
* without a result, when the budget of iterations is spent or the solution is not finite.

`State.run` is the loop and recurses on the budget; `Lcp.run` is the whole method on a tableau and
a pair of vectors that may hold anything before.
-/

namespace Complementarity

variable {α : Type} {n : Nat}

/-- How a run ended. -/
inductive Ending (n : Nat) where
  /-- The artificial variable has left, and the bookkeeping tells which variable has which value. -/
  | solution (basis : Basis n)
  /-- The artificial variable has left, but the value of this row is not finite. -/
  | overflow (row : Fin n)
  /-- Nothing blocks the variable of this column. -/
  | ray (column : Fin (n + 1))
  /-- The budget is spent. -/
  | outOfBudget
  deriving DecidableEq

/-- The status that an ending stands for. -/
def Ending.status : Ending n → Status
  | solution _ => .nontrivialSolution
  | overflow _ => .failedToConverge
  | ray _ => .noSolution
  | outOfBudget => .failedToConverge

/-- What is reported about an ending.  A solution needs no report. -/
def Ending.report? (budget pivots : Nat) : Ending n → Option Event
  | solution _ => none
  | overflow row => some (.overflowed row n pivots)
  | ray column => some (.unblocked column pivots n)
  | outOfBudget => some (.outOfBudget budget n pivots)

/-- The end of a run: how it came about, the number of iterations, the last tableau and the
journal. -/
structure Finish (α : Type) (n : Nat) where
  ending : Ending n
  iterations : Nat
  tableau : Tableau α n
  journal : Journal n

/-- The result of a solve. -/
structure Outcome (α : Type) (n : Nat) where
  status : Status
  point : Point α n
  cost : Cost
  /-- The reports, in the order in which they were made. -/
  log : List Event
  /-- The pivots, in the order in which they were made. -/
  pivots : List (Pivot n)

/-- Set the coordinate that belongs to a variable.  The artificial pair has none. -/
def Point.put (p : Point α n) (v : Variable n) (x : α) : Point α n :=
  match v with
  | .w i => if h : i.val < n then { p with w := p.w.set i.val x } else p
  | .z i => if h : i.val < n then { p with z := p.z.set i.val x } else p

variable [Scalar α]

/-- Read a solution off a tableau: a basic variable has the constant of its row as its value, and
a nonbasic variable is zero. -/
def Basis.readOff (b : Basis n) (t : Tableau α n) (p : Point α n) : Point α n :=
  let proper := (List.finRange (n + 1)).filter fun c => !(b.inColumn c).isArtificial
  let withBasic := (List.finRange n).foldl (fun p r => p.put (b.inRow r) (t.constant r)) p
  proper.foldl (fun p c => p.put (b.inColumn c) 0) withBasic

/-- The first row whose constant is not finite. -/
def Tableau.overflowingRow (t : Tableau α n) : Option (Fin n) :=
  (List.finRange n).find? fun r => !Scalar.isFinite (t.constant r)

/-- How a run ends whose artificial variable has left. -/
def Ending.ofReleased (t : Tableau α n) (basis : Basis n) : Ending n :=
  match t.overflowingRow with
  | some row => .overflow row
  | none => .solution basis

/-- Iterate from a state, at most `budget` times after the `iterations` iterations made so far.
Every iteration follows one pivot and makes another one, unless it ends the run. -/
def State.run (d : Diagnostics) : (budget iterations : Nat) → State α n → Journal n → Finish α n
  | 0, iterations, s, journal => ⟨.outOfBudget, iterations, s.tableau, journal⟩
  | budget + 1, iterations, s, journal =>
    match s.step with
    | .released basis => ⟨.ofReleased s.tableau basis, iterations + 1, s.tableau, journal⟩
    | .unblocked column => ⟨.ray column, iterations + 1, s.tableau, journal⟩
    | .pivoted next =>
      run d budget (iterations + 1) next
        (journal.note d (iterations + 2) ⟨next.row, next.column⟩ false next.tableau)

namespace Lcp

/-- The result if `q` itself is the solution. -/
def trivialOutcome (p : Lcp α n) (recordsSizes : Bool) : Outcome α n where
  status := .trivialSolution
  point := ⟨p.q, Vector.replicate n 0⟩
  cost :=
    { largestBits := ((Journal.blank recordsSizes : Journal n).measure p.q.toList).maxBits }
  log := []
  pivots := []

/-- The result of a run, written into a pair of vectors. -/
def outcomeOfFinish (d : Diagnostics) (budget : Nat) (f : Finish α n) (buffer : Point α n) :
    Outcome α n :=
  let count := f.journal.pivots.length
  let journal := match f.ending.report? budget count with
    | some event => f.journal.close d event
    | none => f.journal
  { status := f.ending.status
    point := match f.ending with
      | .solution basis => basis.readOff f.tableau buffer
      | _ => Point.zero α n
    cost := ⟨f.iterations, count, journal.maxBits⟩
    log := journal.reports.reverse
    pivots := journal.pivots.reverse }

/-- Pivot from the row with the least constant until the run ends. -/
def pivotFrom (p : Lcp α n) (settings : Settings) (d : Diagnostics) (perturbed : Tableau α n)
    (row : Fin n) : Finish α n :=
  let first := State.start (perturbed.withMatrix p.m) row
  let journal := (Journal.blank settings.recordSizes).note d 1 ⟨first.row, first.column⟩ true
    first.tableau
  first.run d (settings.budget n) 0 journal

/-- Solve a problem, in a tableau and a pair of vectors whose contents do not matter. -/
def run (p : Lcp α n) (settings : Settings) (diagnostics : Diagnostics) (workspace : Tableau α n)
    (buffer : Point α n) : Outcome α n × Tableau α n :=
  let d := diagnostics.enableIf settings.verbose
  let perturbed := workspace.withPerturbation p.q
  match perturbed.lowestRow.filter fun lowest => lexNeg lowest.2 with
  | none => (p.trivialOutcome settings.recordSizes, perturbed)
  | some (row, _) =>
    let finish := p.pivotFrom settings d perturbed row
    (outcomeOfFinish d (settings.budget n) finish buffer, finish.tableau)

end Lcp

end Complementarity
