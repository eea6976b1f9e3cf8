import Complementarity.Tableau.Checked

/-!
# Tableau operations cell by cell

`Tableau.pivot` and its like say at once what every entry of the result is.  A tableau that is
updated in place is written cell by cell instead, and a cell that has been written is no longer
there to be read.  The operations below are the loops that do so, on numbered rows and columns.
Each access is checked, so that an operation goes through only if none of its accesses is out of
range and its division has a result.

The order of the writes is what makes them work: a pivot rewrites the other rows while the row it
solves still holds its old entries, and that row comes last.
-/

namespace Complementarity.Tableau

variable {α : Type} {n : Nat}

/-- The tableau with one entry set. -/
def set (t : Tableau α n) (r : Fin n) (c : Fin (2 * n + 2)) (x : α) : Tableau α n :=
  ⟨t.cells.set r c x⟩

/-- Setting an entry changes that one and no other. -/
theorem entry_set (t : Tableau α n) (r r' : Fin n) (c c' : Fin (2 * n + 2)) (x : α) :
    (t.set r c x).entry r' c' = if r = r' ∧ c = c' then x else t.entry r' c' :=
  t.cells.entry_set r r' c c' x

namespace InPlace

/-- Write at two numbers. -/
def write (t : Tableau α n) (r c : Nat) (x : α) : Except TableauFault (Tableau α n) := do
  return t.set (← Checked.row n r) (← Checked.column n c) x

/-- Replace the entry at two numbers by what a function makes of it. -/
def rewrite (t : Tableau α n) (r c : Nat) (f : α → α) : Except TableauFault (Tableau α n) := do
  write t r c (f (← Checked.entry t r c))

/-- Fill a list with what a function makes of the coefficients of a polynomial. -/
def fillPolynomial (t : Tableau α n) (r : Nat) (f : α → α) (out : List α) :
    Except TableauFault (List α) :=
  if out.length = n + 1 then
    (List.range out.length).mapM fun k => return f (← Checked.entry t r (n + 1 + k))
  else .error (.wrongLength (n + 1) out.length)

variable [Scalar α]

/-! ## Loading a problem -/

/-- Write the polynomial `x + ε ^ (r + 1)` into row `r`: zeros first, and then its two
coefficients. -/
def loadConstant (t : Tableau α n) (r : Nat) (x : α) : Except TableauFault (Tableau α n) := do
  let cleared ← (List.range (n + 1)).foldlM (fun t k => write t r (n + 1 + k) 0) t
  let constant ← write cleared r (n + 1) x
  write constant r (n + 2 + r) 1

/-- Load the perturbation of a vector, which must have length `n`. -/
def loadPerturbation (t : Tableau α n) (q : Array α) : Except TableauFault (Tableau α n) :=
  if q.size = n then q.toList.zipIdx.foldlM (fun t x => loadConstant t x.2 x.1) t
  else .error (.wrongLength n q.size)

/-- The entry of a matrix at two numbers. -/
def entryOf (m : Grid α) (r c : Nat) : Except TableauFault α :=
  if hr : r < m.rows then
    if hc : c < m.cols then .ok (m.cells.entry ⟨r, hr⟩ ⟨c, hc⟩) else .error (.columnOutOfRange c)
  else .error (.rowOutOfRange r)

/-- Write row `r` of a matrix, and the one of the artificial column. -/
def loadRow (m : Grid α) (t : Tableau α n) (r : Nat) : Except TableauFault (Tableau α n) := do
  let loaded ← (List.range n).foldlM (fun t c => do write t r c (← entryOf m r c)) t
  write loaded r n 1

/-- Load a matrix, which must be `n × n`. -/
def loadMatrix (t : Tableau α n) (m : Grid α) : Except TableauFault (Tableau α n) :=
  if m.rows = n ∧ m.cols = n then (List.range n).foldlM (loadRow m) t
  else .error (.wrongShape n m.rows m.cols)

/-! ## Pivoting -/

/-- The numbers of the rows other than row `b`. -/
def otherRows (n b : Nat) : List Nat := (List.range n).filter fun r => r ≠ b

/-- The numbers of the columns other than the artificial one. -/
def properColumns (n : Nat) : List Nat := (List.range (2 * n + 2)).filter fun c => c ≠ n

/-- Subtract row `b` from row `r`, but for the artificial column. -/
def subtractRow (b : Nat) (t : Tableau α n) (r : Nat) : Except TableauFault (Tableau α n) :=
  (properColumns n).foldlM (fun t c => do
    let current ← Checked.entry t r c
    write t r c (current - (← Checked.entry t b c))) t

/-- Change the sign of row `b`, but for the artificial column. -/
def negateRow (t : Tableau α n) (b : Nat) : Except TableauFault (Tableau α n) :=
  (properColumns n).foldlM (fun t c => rewrite t b c fun current => -current) t

/-- The first pivot, in a numbered row. -/
def enterArtificial (t : Tableau α n) (b : Nat) : Except TableauFault (Tableau α n) := do
  let eliminated ← (otherRows n b).foldlM (subtractRow b) t
  negateRow eliminated b

/-- The reciprocal of the entry at two numbers. -/
def reciprocal (t : Tableau α n) (r c : Nat) : Except TableauFault α := do
  let x ← Checked.entry t r c
  if Scalar.isDivisor x then return 1 / x else .error (.noReciprocal r c)

/-- Substitute the solution of row `b` for the variable of column `d` in row `r`.  A row whose entry
in the column is zero is skipped. -/
def eliminateRow (b d : Nat) (inverse : α) (t : Tableau α n) (r : Nat) :
    Except TableauFault (Tableau α n) := do
  let driving ← Checked.entry t r d
  if Scalar.isZero driving then return t
  let multiplier := driving * inverse
  (List.range (2 * n + 2)).foldlM (fun t c =>
    if c = d then write t r c multiplier
    else do
      let delta := (← Checked.entry t b c) * multiplier
      rewrite t r c fun current => current - delta) t

/-- Solve row `b` for the variable of column `d`. -/
def solveRow (b d : Nat) (inverse : α) (t : Tableau α n) : Except TableauFault (Tableau α n) :=
  (List.range (2 * n + 2)).foldlM (fun t c =>
    if c = d then write t b c inverse
    else rewrite t b c fun current => -(current * inverse)) t

/-- A pivot at two numbers: the other rows while row `b` still has its old entries, then row
`b`. -/
def pivot (t : Tableau α n) (b d : Nat) : Except TableauFault (Tableau α n) := do
  let inverse ← reciprocal t b d
  let eliminated ← (otherRows n b).foldlM (eliminateRow b d inverse) t
  solveRow b d inverse eliminated

end InPlace

end Complementarity.Tableau
