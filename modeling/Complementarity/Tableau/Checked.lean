import Complementarity.Tableau.Basic

/-!
# Tableau operations on unchecked arguments

A tableau is indexed by `Fin`, so the operations proper cannot go out of range.  Callers that hold
plain numbers, vectors of any length and matrices of any shape use the functions below, which
check their arguments first and name what is wrong with them.
-/

namespace Complementarity

/-- Why an operation on a tableau cannot be carried out. -/
inductive TableauFault where
  | rowOutOfRange (row : Nat)
  | columnOutOfRange (column : Nat)
  | wrongLength (expected actual : Nat)
  | wrongShape (expected rows columns : Nat)
  /-- The driving entry has no reciprocal. -/
  | noReciprocal (row column : Nat)
  deriving DecidableEq, Repr

namespace Tableau.Checked

variable {α : Type} {n : Nat}

/-- A row number as an index. -/
def row (n r : Nat) : Except TableauFault (Fin n) :=
  if h : r < n then .ok ⟨r, h⟩ else .error (.rowOutOfRange r)

/-- A column number as an index. -/
def column (n c : Nat) : Except TableauFault (Fin (2 * n + 2)) :=
  if h : c < 2 * n + 2 then .ok ⟨c, h⟩ else .error (.columnOutOfRange c)

/-- The entry at two numbers. -/
def entry (t : Tableau α n) (r c : Nat) : Except TableauFault α := do
  return t.entry (← row n r) (← column n c)

/-- The constant of a numbered row. -/
def constant (t : Tableau α n) (r : Nat) : Except TableauFault α := do
  return t.constant (← row n r)

/-- The polynomial of a numbered row. -/
def polynomial (t : Tableau α n) (r : Nat) : Except TableauFault (List α) := do
  return t.polynomial (← row n r)

variable [Scalar α]

/-- The scaled polynomial of a numbered row. -/
def scaledPolynomial (t : Tableau α n) (r : Nat) (factor : α) : Except TableauFault (List α) := do
  return t.scaledPolynomial (← row n r) factor

/-- Load the perturbation of a vector, which must have length `n`. -/
def withPerturbation (t : Tableau α n) (q : Array α) : Except TableauFault (Tableau α n) :=
  if h : q.size = n then .ok (t.withPerturbation ⟨q, h⟩) else .error (.wrongLength n q.size)

/-- Load a matrix, which must be `n × n`. -/
def withMatrix (t : Tableau α n) (m : Grid α) : Except TableauFault (Tableau α n) :=
  match m.toDense? n n with
  | some cells => .ok (t.withMatrix cells)
  | none => .error (.wrongShape n m.rows m.cols)

/-- The first pivot in a numbered row. -/
def enterArtificial (t : Tableau α n) (r : Nat) : Except TableauFault (Tableau α n) := do
  return t.enterArtificial (← row n r)

/-- A pivot at two numbers.  The entry there must have a reciprocal. -/
def pivot (t : Tableau α n) (r c : Nat) : Except TableauFault (Tableau α n) := do
  let b ← row n r
  let d ← column n c
  if Scalar.isDivisor (t.entry b d) then return t.pivot b d
  else .error (.noReciprocal r c)

end Tableau.Checked

end Complementarity
