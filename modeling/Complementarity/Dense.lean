import Complementarity.Coordinates

/-!
# Dense matrices

`Dense α r c` stores an `r × c` matrix row by row.  It is built from a function of the two indices
and read back by `entry`; `entry_ofFn` says that the two agree, and `Dense.ext` that a matrix is
known by its entries, so no later statement speaks about the storage.  `Grid α` is a dense matrix
whose shape is data, as it is before a problem has been validated.
-/

namespace Complementarity

/-- An `r × c` matrix, stored as a vector of rows. -/
structure Dense (α : Type) (r c : Nat) where
  rows : Vector (Vector α c) r
  deriving DecidableEq

namespace Dense

variable {α β : Type} {r c : Nat}

/-- The matrix with the given entries. -/
def ofFn (f : Fin r → Fin c → α) : Dense α r c :=
  ⟨Vector.ofFn fun i => Vector.ofFn (f i)⟩

/-- Row `i`. -/
def row (m : Dense α r c) (i : Fin r) : Vector α c := m.rows.get i

/-- The entry in row `i` and column `j`. -/
def entry (m : Dense α r c) (i : Fin r) (j : Fin c) : α := (m.row i).get j

@[simp] theorem row_ofFn (f : Fin r → Fin c → α) (i : Fin r) :
    (ofFn f).row i = Vector.ofFn (f i) := by
  simp [ofFn, row]

@[simp] theorem entry_ofFn (f : Fin r → Fin c → α) (i : Fin r) (j : Fin c) :
    (ofFn f).entry i j = f i j := by
  simp [entry]

/-- Two matrices with the same entries are equal. -/
theorem ext {m m' : Dense α r c} (h : ∀ i j, m.entry i j = m'.entry i j) : m = m' := by
  obtain ⟨rows⟩ := m
  obtain ⟨rows'⟩ := m'
  congr 1
  exact vector_ext fun i => vector_ext (h i)

/-- The matrix with one entry set. -/
def set (m : Dense α r c) (i : Fin r) (j : Fin c) (x : α) : Dense α r c :=
  ⟨m.rows.set i.val ((m.row i).set j.val x j.isLt) i.isLt⟩

/-- Setting an entry changes that one and no other. -/
theorem entry_set (m : Dense α r c) (i i' : Fin r) (j j' : Fin c) (x : α) :
    (m.set i j x).entry i' j' = if i = i' ∧ j = j' then x else m.entry i' j' := by
  simp only [entry, row, set, vector_get_set]
  by_cases hi : i = i'
  · subst hi
    simp [vector_get_set]
  · simp [hi]

/-- All entries, row by row. -/
def entries (m : Dense α r c) : List α := m.rows.toList.flatMap Vector.toList

/-- The entries as a list of rows. -/
def toLists (m : Dense α r c) : List (List α) := m.rows.toList.map Vector.toList

/-- The matrix with every entry replaced. -/
def map (f : α → β) (m : Dense α r c) : Dense β r c := ofFn fun i j => f (m.entry i j)

@[simp] theorem entry_map (f : α → β) (m : Dense α r c) (i : Fin r) (j : Fin c) :
    (m.map f).entry i j = f (m.entry i j) := by
  simp [map]

end Dense

/-- A matrix whose shape is known only at run time. -/
structure Grid (α : Type) where
  rows : Nat
  cols : Nat
  cells : Dense α rows cols

namespace Grid

variable {α : Type}

/-- The grid that holds a given matrix. -/
def ofDense {r c : Nat} (m : Dense α r c) : Grid α := ⟨r, c, m⟩

/-- The matrix of a grid that has the stated shape. -/
def toDense (g : Grid α) {r c : Nat} (hr : g.rows = r) (hc : g.cols = c) : Dense α r c :=
  Dense.ofFn fun i j => g.cells.entry (i.cast hr.symm) (j.cast hc.symm)

/-- The matrix of a grid, if it has the stated shape. -/
def toDense? (g : Grid α) (r c : Nat) : Option (Dense α r c) :=
  if h : g.rows = r ∧ g.cols = c then some (g.toDense h.1 h.2) else none

/-- Cut a list into `rows` rows of `cols` entries; `none` if their number is not `rows * cols`. -/
def ofList? (rows cols : Nat) (data : Array α) : Option (Grid α) :=
  if h : data.size = rows * cols then
    some ⟨rows, cols, Dense.ofFn fun i j =>
      have hcell : i.val * cols + j.val < data.size := by
        have hrow : (i.val + 1) * cols ≤ rows * cols := Nat.mul_le_mul_right _ i.isLt
        have := j.isLt
        rw [Nat.succ_mul] at hrow
        omega
      data[i.val * cols + j.val]⟩
  else none

/-- The grid with the given rows; `none` if two of them differ in length. -/
def ofRows? (rows : Array (Array α)) : Option (Grid α) :=
  ofList? rows.size ((rows[0]?).elim 0 Array.size) rows.flatten |>.filter fun g =>
    rows.all fun row => row.size = g.cols

end Grid

end Complementarity
