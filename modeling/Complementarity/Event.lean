import Complementarity.Decimal.Fixed

/-!
# Reports of a solve

What a solve says about itself when diagnostics are on: its pivots, and why it ended without a
solution.  A verification that fails is reported in any case.
-/

namespace Complementarity

/-- How urgent a report is. -/
inductive Severity where
  | debug
  | warning
  deriving DecidableEq, Repr

/-- The name of a severity in a log. -/
def Severity.name : Severity → String
  | debug => "DEBUG"
  | warning => "WARN"

/-- Something worth reporting.  Rows and columns are numbered from zero, pivots from one. -/
inductive Event where
  | pivoted (number row column : Nat) (artificial : Bool)
  | unblocked (column pivots dimension : Nat)
  | outOfBudget (budget dimension pivots : Nat)
  | overflowed (row dimension pivots : Nat)
  | rejected (residual complementarity minW minZ : Float)

namespace Event

/-- How urgent an event is. -/
def severity : Event → Severity
  | pivoted .. => .debug
  | unblocked .. => .debug
  | outOfBudget .. => .warning
  | overflowed .. => .warning
  | rejected .. => .warning

/-- The text of an event. -/
def message : Event → String
  | pivoted number row column artificial =>
    let note := if artificial then " (artificial)" else ""
    s!"lemke: pivot {number} row={row} col={column}{note}"
  | unblocked column pivots dimension =>
    s!"lemke: no blocking row for column {column} after {pivots} pivots (n = {dimension})"
  | outOfBudget budget dimension pivots =>
    s!"lemke: failed to converge within {budget} iterations (n = {dimension}, pivots = {pivots})"
  | overflowed row dimension pivots =>
    s!"lemke: non-finite value in row {row} at termination (n = {dimension}, pivots = {pivots})"
  | rejected residual complementarity minW minZ =>
    let text := Decimal.scientific 3
    "verification failed: residual=" ++ text residual ++ " wz=" ++ text complementarity ++
      " min_w=" ++ text minW ++ " min_z=" ++ text minZ

/-- The line that an event takes in a log. -/
def line (e : Event) : String := e.severity.name ++ " " ++ e.message

end Event

end Complementarity
