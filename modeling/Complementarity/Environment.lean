import Complementarity.Text.Blank
import Complementarity.Text.Numeral

/-!
# Environment variables

Three variables change how a solver behaves: a default for the iteration limit, a switch for
diagnostics, and the stride of the pivot trace.  A variable that is not set, or whose value is not
text, counts as absent; so does a count that is not a positive number.
-/

namespace Complementarity

/-- The values of the variables that are set. -/
structure Environment where
  maxIter : Option String := none
  diagnostics : Option String := none
  diagnosticsEvery : Option String := none
  deriving DecidableEq, Repr

namespace Environment

/-- The names under which the variables are looked up. -/
def maxIterName : String := "LEMKE_MAX_ITER"

@[inherit_doc maxIterName]
def diagnosticsName : String := "LEMKE_DIAGNOSTICS"

@[inherit_doc maxIterName]
def diagnosticsEveryName : String := "LEMKE_DIAGNOSTICS_EVERY"

/-- Whether a switch is on: its value, without blanks at the ends and without regard to the case
of ASCII letters, is `1`, `true`, `yes` or `on`. -/
def isOn (value : String) : Bool :=
  String.ofList ((Text.trimBlank value).map Char.toLower) ∈ ["1", "true", "yes", "on"]

/-- The positive number that a value states, blanks at the ends aside. -/
def positive? (value : String) : Option Nat :=
  (Text.numeralValue? (Text.trimBlank value)).filter (0 < ·)

end Environment

end Complementarity
