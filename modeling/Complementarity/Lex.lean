import Complementarity.Scalar.Basic

/-!
# The lexicographic order of perturbation polynomials

The constant of a row is a polynomial in an infinitesimal, given by its list of coefficients with
the constant term first.  Of two such polynomials the smaller one near zero is the one with the
smaller coefficient in the first place where they differ, which is what `lexLt` decides.

Coefficients that are neither smaller nor greater count as equal and the comparison goes on; for
floating-point coefficients this includes a NaN.  `lexLeast` picks the candidate with the least
key and, among equals, the one that comes first.
-/

namespace Complementarity

variable {α : Type} [Scalar α]

/-- Whether the first list precedes the second: the first place where they differ decides, and
lists that agree as far as the shorter one goes do not precede each other. -/
def lexLt : List α → List α → Bool
  | x :: xs, y :: ys => if x < y then true else if y < x then false else lexLt xs ys
  | _, _ => false

/-- Whether the first nonzero coefficient is negative. -/
def lexNeg : List α → Bool
  | [] => false
  | x :: xs => if x < 0 then true else if 0 < x then false else lexNeg xs

/-- Keep the incumbent unless the challenger's key is smaller. -/
def lexKeep {ι : Type} (key : ι → List α) (best : Option (ι × List α)) (i : ι) :
    Option (ι × List α) :=
  match best with
  | none => some (i, key i)
  | some (j, least) =>
    let challenger := key i
    if lexLt challenger least then some (i, challenger) else some (j, least)

/-- The first candidate whose key no other candidate's key precedes, with that key. -/
def lexLeast {ι : Type} (key : ι → List α) (candidates : List ι) : Option (ι × List α) :=
  candidates.foldl (lexKeep key) none

@[simp] theorem lexLeast_nil {ι : Type} (key : ι → List α) : lexLeast key [] = none := rfl

/-- A list compared with zeros of its own length is negative exactly when it precedes them. -/
theorem lexNeg_eq_lexLt (xs : List α) :
    lexNeg xs = lexLt xs (xs.map fun _ => 0) := by
  induction xs with
  | nil => rfl
  | cons x xs ih => simp [lexNeg, lexLt, ih]

end Complementarity
