/-!
# Problem families and choices

The four families of test problems, the choice of one or all of them, and the choice of the scalar
types to solve them with.  Everything that can be chosen has a keyword under which it is chosen and
a tag under which the choice is reported.
-/

namespace Complementarity.Benchmark

/-- A family of problems. -/
inductive Family where
  /-- Symmetric positive definite matrices `A Aᵀ + δ I`. -/
  | positiveDefinite
  /-- Positive semidefinite matrices `B Bᵀ` of bounded rank. -/
  | positiveSemidefinite
  /-- Lower triangular matrices on which the number of pivots is exponential. -/
  | murty
  /-- Matrices without structure. -/
  | random
  deriving DecidableEq, Repr

namespace Family

/-- All families, in the order in which they are run. -/
def every : List Family := [positiveDefinite, positiveSemidefinite, murty, random]

/-- The keyword of a family. -/
def keyword : Family → String
  | positiveDefinite => "pd"
  | positiveSemidefinite => "psd"
  | murty => "murty"
  | random => "random"

/-- The tag of a family. -/
def tag : Family → String
  | positiveDefinite => "Pd"
  | positiveSemidefinite => "Psd"
  | murty => "Murty"
  | random => "Random"

/-- The name of a family in a report. -/
def name : Family → String
  | positiveDefinite => "positive definite"
  | positiveSemidefinite => "positive semidefinite"
  | murty => "murty"
  | random => "random"

end Family

/-- One family, or all of them. -/
inductive FamilySelection where
  | one (family : Family)
  | all
  deriving DecidableEq, Repr

namespace FamilySelection

/-- The families that are chosen. -/
def families : FamilySelection → List Family
  | one family => [family]
  | all => Family.every

/-- The keyword of a choice. -/
def keyword : FamilySelection → String
  | one family => family.keyword
  | all => "all"

/-- The tag of a choice. -/
def tag : FamilySelection → String
  | one family => family.tag
  | all => "All"

/-- The name of a choice. -/
def name : FamilySelection → String
  | one family => family.name
  | all => "all"

/-- The choice with a given keyword. -/
def ofKeyword? (word : String) : Option FamilySelection :=
  (Family.every.map one ++ [all]).find? fun choice => choice.keyword = word

end FamilySelection

/-- What is said about a keyword that nothing has. -/
def unknownKeyword (word : String) : String := s!"invalid variant: {word}"

/-- The scalar types to solve with. -/
inductive ScalarSelection where
  | double
  | rational
  | both
  deriving DecidableEq, Repr

namespace ScalarSelection

/-- The keyword of a choice. -/
def keyword : ScalarSelection → String
  | double => "f64"
  | rational => "rational"
  | both => "both"

/-- The tag of a choice. -/
def tag : ScalarSelection → String
  | double => "F64"
  | rational => "Rational"
  | both => "Both"

/-- The choice with a given keyword. -/
def ofKeyword? (word : String) : Option ScalarSelection :=
  [double, rational, both].find? fun choice => choice.keyword = word

/-- Whether binary64 numbers are used. -/
def usesDouble (c : ScalarSelection) : Bool := c ≠ rational

/-- Whether rationals are used. -/
def usesRational (c : ScalarSelection) : Bool := c ≠ double

end ScalarSelection

end Complementarity.Benchmark
