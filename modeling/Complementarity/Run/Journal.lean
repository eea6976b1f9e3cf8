import Complementarity.Diagnostics
import Complementarity.Event
import Complementarity.Tableau.Basic

/-!
# The journal of a run

What is noted down while a run goes on: every pivot, the reports that diagnostics ask for, and the
size of the largest entry if that is wanted.  Nothing in a run looks at its journal.
-/

namespace Complementarity

/-- The row and the column of a pivot. -/
structure Pivot (n : Nat) where
  row : Fin n
  column : Fin (n + 1)
  deriving DecidableEq, Repr

/-- Notes on a run, the latest pivot and the latest report first. -/
structure Journal (n : Nat) where
  pivots : List (Pivot n)
  reports : List Event
  /-- Present exactly if sizes are recorded. -/
  sizes : Option SizeRecord

namespace Journal

variable {α : Type} [Scalar α] {n : Nat}

/-- The journal before the first pivot. -/
def blank (recordsSizes : Bool) : Journal n where
  pivots := []
  reports := []
  sizes := if recordsSizes then some {} else none

/-- Look at some entries, if sizes are recorded. -/
def measure (j : Journal n) (entries : List α) : Journal n :=
  { j with sizes := j.sizes.map fun s => s.observe entries }

/-- Note the pivot of a number, which has led to a tableau. -/
def note (j : Journal n) (d : Diagnostics) (number : Nat) (pivot : Pivot n) (artificial : Bool)
    (t : Tableau α n) : Journal n :=
  let report := Event.pivoted number pivot.row pivot.column artificial
  { pivots := pivot :: j.pivots
    reports := if d.traces number then report :: j.reports else j.reports
    sizes := j.sizes.map fun s => s.observe t.entries }

/-- Note how the run ended. -/
def close (j : Journal n) (d : Diagnostics) (event : Event) : Journal n :=
  if d.enabled then { j with reports := event :: j.reports } else j

/-- The size of the largest entry, if sizes are recorded. -/
def maxBits (j : Journal n) : Option Nat := j.sizes.map SizeRecord.maxBits

end Journal

end Complementarity
