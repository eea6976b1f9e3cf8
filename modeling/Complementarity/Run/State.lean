import Complementarity.Basis
import Complementarity.Tableau.Basic

/-!
# States of a run

A run is a sequence of pivots.  Between two of them its state is the tableau after the last pivot
together with the bookkeeping of the basis as it was before that pivot, and the row and column of
the pivot itself.  `State.step` performs one iteration:

* it brings the bookkeeping up to date, which names the next driving column;
* if the variable that has just left the basis is the artificial one, the run is over;
* otherwise it looks for the row that blocks the driving variable and pivots there.  Without such
  a row the run has met a ray.
-/

namespace Complementarity

variable {α : Type} {n : Nat}

/-- Where a run stands after a pivot in row `row` and column `column`. -/
structure State (α : Type) (n : Nat) where
  tableau : Tableau α n
  basis : Basis n
  row : Fin n
  column : Fin (n + 1)

/-- What an iteration comes to. -/
inductive Step (α : Type) (n : Nat) where
  /-- The artificial variable is nonbasic again; the up-to-date bookkeeping. -/
  | released (basis : Basis n)
  /-- No row blocks the variable of this column. -/
  | unblocked (column : Fin (n + 1))
  /-- The state after one more pivot. -/
  | pivoted (next : State α n)

namespace State

/-- The bookkeeping after the last pivot, and the column of the next driving variable. -/
def exchanged (s : State α n) : Basis n × Fin (n + 1) := s.basis.exchange s.row s.column

variable [Scalar α]

/-- The state after the first pivot, in which the artificial variable enters in row `row` of a
loaded tableau. -/
def start (t : Tableau α n) (row : Fin n) : State α n where
  tableau := t.enterArtificial row
  basis := Basis.initial n
  row := row
  column := Fin.last n

/-- One iteration. -/
def step (s : State α n) : Step α n :=
  let (basis, driving) := s.exchanged
  if (basis.inColumn s.column).isArtificial then .released basis
  else
    match s.tableau.blockingRow driving with
    | none => .unblocked driving
    | some row =>
      .pivoted
        { tableau := s.tableau.pivot row (Tableau.coefficientColumn driving)
          basis := basis
          row := row
          column := driving }

end State

end Complementarity
