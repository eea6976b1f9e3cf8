import Complementarity.Dense
import Complementarity.Lex

/-!
# The augmented tableau

A tableau of dimension `n` has `n` rows and `2n + 2` columns.  Row `r` states the equation

`y_r = p_r(ε) + Σ_c a_rc · x_c`,

where `y_r` is the basic variable of the row and `x_c` the nonbasic variable of column `c ≤ n`;
columns `0 … n` hold the coefficients `a_rc` (column `n` belongs to the artificial variable at the
start), and columns `n + 1 … 2n + 1` the coefficients of the perturbation polynomial `p_r`,
constant term first.

`pivot b d` solves equation `b` for `x_d` and substitutes the solution in the other equations;
`enterArtificial b` is the first pivot, where the driving column consists of ones and stays so.
The order of the operations in each entry is part of the definition, since floating-point results
depend on it: `entry_pivot` and `entry_enterArtificial` state it.
-/

namespace Complementarity

/-- The augmented tableau of dimension `n`. -/
structure Tableau (α : Type) (n : Nat) where
  cells : Dense α n (2 * n + 2)

namespace Tableau

variable {α : Type} {n : Nat}

/-- The column of coefficient `c`. -/
def coefficientColumn (c : Fin (n + 1)) : Fin (2 * n + 2) := ⟨c, by omega⟩

/-- The column of the polynomial coefficient of degree `k`. -/
def polynomialColumn (k : Fin (n + 1)) : Fin (2 * n + 2) := ⟨n + 1 + k, by omega⟩

/-- The column of the artificial variable. -/
def artificialColumn : Fin (2 * n + 2) := coefficientColumn (Fin.last n)

/-- The number of columns. -/
def columns (_ : Tableau α n) : Nat := 2 * n + 2

/-- The entry in row `r` and column `c`. -/
def entry (t : Tableau α n) (r : Fin n) (c : Fin (2 * n + 2)) : α := t.cells.entry r c

/-- The coefficient of the nonbasic variable `c` in row `r`. -/
def coefficient (t : Tableau α n) (r : Fin n) (c : Fin (n + 1)) : α :=
  t.entry r (coefficientColumn c)

/-- The value of the basic variable of row `r` when the nonbasic variables are zero. -/
def constant (t : Tableau α n) (r : Fin n) : α := t.entry r (polynomialColumn 0)

/-- The perturbation polynomial of row `r`. -/
def polynomial (t : Tableau α n) (r : Fin n) : List α :=
  List.ofFn fun k => t.entry r (polynomialColumn k)

/-- All entries. -/
def entries (t : Tableau α n) : List α := t.cells.entries

/-- Two tableaux with the same entries are equal. -/
theorem ext {t u : Tableau α n} (h : ∀ r c, t.entry r c = u.entry r c) : t = u := by
  obtain ⟨cells⟩ := t
  obtain ⟨cells'⟩ := u
  congr 1
  exact Dense.ext h

variable [Scalar α]

/-- The tableau of zeros. -/
def zero (α : Type) [Scalar α] (n : Nat) : Tableau α n := ⟨Dense.ofFn fun _ _ => 0⟩

/-- The polynomial of row `r` times a factor. -/
def scaledPolynomial (t : Tableau α n) (r : Fin n) (factor : α) : List α :=
  List.ofFn fun k => factor * t.entry r (polynomialColumn k)

/-! ## Loading a problem -/

/-- Write the polynomials `p_r(ε) = q_r + ε ^ (r + 1)`; the coefficients stay as they are. -/
def withPerturbation (t : Tableau α n) (q : Vector α n) : Tableau α n :=
  ⟨Dense.ofFn fun r c =>
    if c.val ≤ n then t.entry r c
    else if c.val = n + 1 then q.get r
    else if c.val = n + 2 + r.val then 1
    else 0⟩

/-- Write the matrix and the artificial column of ones; the polynomials stay as they are. -/
def withMatrix (t : Tableau α n) (m : Dense α n n) : Tableau α n :=
  ⟨Dense.ofFn fun r c =>
    if h : c.val < n then m.entry r ⟨c.val, h⟩
    else if c.val = n then 1
    else t.entry r c⟩

@[simp] theorem entry_withPerturbation (t : Tableau α n) (q : Vector α n) (r : Fin n)
    (c : Fin (2 * n + 2)) :
    (t.withPerturbation q).entry r c =
      if c.val ≤ n then t.entry r c
      else if c.val = n + 1 then q.get r
      else if c.val = n + 2 + r.val then 1
      else 0 := by
  simp [withPerturbation, entry]

@[simp] theorem entry_withMatrix (t : Tableau α n) (m : Dense α n n) (r : Fin n)
    (c : Fin (2 * n + 2)) :
    (t.withMatrix m).entry r c =
      if h : c.val < n then m.entry r ⟨c.val, h⟩
      else if c.val = n then 1
      else t.entry r c := by
  simp [withMatrix, entry]

/-! ## Pivoting -/

/-- Solve equation `b` for the artificial variable.  Its column consists of ones, so eliminating it
from another row is a subtraction of rows, and the column keeps its ones. -/
def enterArtificial (t : Tableau α n) (b : Fin n) : Tableau α n :=
  ⟨Dense.ofFn fun r c =>
    if c = artificialColumn then t.entry r c
    else if r = b then -t.entry b c
    else t.entry r c - t.entry b c⟩

/-- Solve equation `b` for the variable of column `d`: that variable becomes basic in row `b`, and
the variable that was basic there takes over the column.  A row whose entry in the column is zero
is left alone. -/
def pivot (t : Tableau α n) (b : Fin n) (d : Fin (2 * n + 2)) : Tableau α n :=
  let inverse := 1 / t.entry b d
  ⟨⟨Vector.ofFn fun r =>
    if r = b then
      Vector.ofFn fun c => if c = d then inverse else -(t.entry b c * inverse)
    else if Scalar.isZero (t.entry r d) then t.cells.row r
    else
      let multiplier := t.entry r d * inverse
      Vector.ofFn fun c =>
        if c = d then multiplier else t.entry r c - t.entry b c * multiplier⟩⟩

@[simp] theorem entry_enterArtificial (t : Tableau α n) (b r : Fin n) (c : Fin (2 * n + 2)) :
    (t.enterArtificial b).entry r c =
      if c = artificialColumn then t.entry r c
      else if r = b then -t.entry b c
      else t.entry r c - t.entry b c := by
  simp [enterArtificial, entry]

/-- The entries after a pivot. -/
theorem entry_pivot (t : Tableau α n) (b r : Fin n) (d c : Fin (2 * n + 2)) :
    (t.pivot b d).entry r c =
      if r = b then
        if c = d then 1 / t.entry b d else -(t.entry b c * (1 / t.entry b d))
      else if Scalar.isZero (t.entry r d) then t.entry r c
      else
        if c = d then t.entry r d * (1 / t.entry b d)
        else t.entry r c - t.entry b c * (t.entry r d * (1 / t.entry b d)) := by
  by_cases hr : r = b
  · subst hr
    simp [pivot, entry, Dense.entry, Dense.row]
  · by_cases hz : Scalar.isZero (t.entry r d) = true
    · simp only [entry, Dense.entry, Dense.row] at hz
      simp [pivot, entry, Dense.entry, Dense.row, hr, hz]
    · simp only [entry, Dense.entry, Dense.row] at hz
      simp [pivot, entry, Dense.entry, Dense.row, hr, hz]

/-! ## Choosing a row -/

/-- The row whose polynomial is lexicographically least, with that polynomial. -/
def lowestRow (t : Tableau α n) : Option (Fin n × List α) :=
  lexLeast t.polynomial (List.finRange n)

/-- The polynomial in which the variable of column `d` reaches zero in row `r`: as long as it stays
below, the basic variable of the row stays positive. -/
def ratio (t : Tableau α n) (d : Fin (n + 1)) (r : Fin n) : List α :=
  t.scaledPolynomial r (-(1 / t.coefficient r d))

/-- The row that blocks an increase of the variable of column `d` first: among the rows with a
negative coefficient the one with the least ratio, if there is such a row. -/
def blockingRow (t : Tableau α n) (d : Fin (n + 1)) : Option (Fin n) :=
  (lexLeast (t.ratio d) ((List.finRange n).filter fun r => decide (t.coefficient r d < 0))).map
    Prod.fst

end Tableau

end Complementarity
