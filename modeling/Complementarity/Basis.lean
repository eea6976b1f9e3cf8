import Complementarity.Coordinates

/-!
# Bookkeeping of basic and nonbasic variables

The variables come in pairs `w_i`, `z_i`.  For `i < n` these are the variables of the problem; `z_n`
is the artificial variable, and `w_n` is a formal partner for it, which enters no equation.

Rows and columns of a tableau carry *places*: row `r` is place `r` of `basic`, column `c` is place
`c` of `nonbasic`, and the last place of `basic` belongs to `w_n`.  A place records which variable
stands there and where the partner of that variable stands in the opposite array; for the one pair
that is wholly nonbasic during a run, the record of the later one names the column of its partner.

`exchange` brings the bookkeeping up to date after a pivot.  The variable that has just left the
basis hands the driving role to its partner, so the exchange also returns the place of that
partner, which is the next driving column.
-/

namespace Complementarity

/-- A variable of the augmented problem. -/
inductive Variable (n : Nat) where
  | w (i : Fin (n + 1))
  | z (i : Fin (n + 1))
  deriving DecidableEq, Repr

namespace Variable

variable {n : Nat}

/-- The number of the pair that the variable belongs to. -/
def index : Variable n → Fin (n + 1)
  | w i => i
  | z i => i

/-- The other variable of the pair. -/
def partner : Variable n → Variable n
  | w i => z i
  | z i => w i

@[simp] theorem index_partner (v : Variable n) : v.partner.index = v.index := by
  cases v <;> rfl

@[simp] theorem partner_partner (v : Variable n) : v.partner.partner = v := by
  cases v <;> rfl

/-- Whether the variable belongs to the artificial pair. -/
def isArtificial (v : Variable n) : Bool := v.index = Fin.last n

end Variable

/-- What stands in a row or column: a variable, and the place of its partner. -/
structure Place (n : Nat) where
  var : Variable n
  partner : Fin (n + 1)
  deriving DecidableEq, Repr

/-- Which variable is basic in each row and which is nonbasic in each column. -/
structure Basis (n : Nat) where
  basic : Vector (Place n) (n + 1)
  nonbasic : Vector (Place n) (n + 1)
  deriving DecidableEq

namespace Basis

variable {n : Nat}

/-- At the start every `w_i` is basic in row `i` and every `z_i` nonbasic in column `i`. -/
def initial (n : Nat) : Basis n where
  basic := Vector.ofFn fun i => ⟨.w i, i⟩
  nonbasic := Vector.ofFn fun i => ⟨.z i, i⟩

/-- The variable that is basic in row `r`. -/
def inRow (b : Basis n) (r : Fin n) : Variable n := (b.basic.get r.castSucc).var

/-- The variable that is nonbasic in column `c`. -/
def inColumn (b : Basis n) (c : Fin (n + 1)) : Variable n := (b.nonbasic.get c).var

/-- Let the variables of row `r` and column `c` trade places.  The partner of the variable that
leaves row `r` learns that its own partner now stands in column `c`; its place is returned. -/
def exchange (b : Basis n) (r : Fin n) (c : Fin (n + 1)) : Basis n × Fin (n + 1) :=
  let leaving := b.basic.get r.castSucc
  let next := leaving.partner
  let informed := b.nonbasic.set next.val { b.nonbasic.get next with partner := c }
  let entering := informed.get c
  (⟨b.basic.set r.castSucc.val entering r.castSucc.isLt, informed.set c.val leaving⟩, next)

/-! ## Who stands where -/

@[simp] theorem inRow_initial (r : Fin n) : (initial n).inRow r = .w r.castSucc := by
  simp [initial, inRow]

@[simp] theorem inColumn_initial (c : Fin (n + 1)) : (initial n).inColumn c = .z c := by
  simp [initial, inColumn]

/-- Informing a place of its partner moves no variable. -/
theorem var_get_informed (v : Vector (Place n) (n + 1)) (next c c' : Fin (n + 1)) :
    ((v.set next.val { v.get next with partner := c }).get c').var = (v.get c').var := by
  rw [vector_get_set]
  split
  · subst_vars
    rfl
  · rfl

/-- After an exchange row `r` holds what column `c` held. -/
theorem inRow_exchange (b : Basis n) (r r' : Fin n) (c : Fin (n + 1)) :
    (b.exchange r c).1.inRow r' = if r = r' then b.inColumn c else b.inRow r' := by
  simp only [exchange, inRow, inColumn]
  rw [vector_get_set]
  simp only [Fin.castSucc_inj]
  split
  · exact var_get_informed _ _ _ _
  · rfl

/-- After an exchange column `c` holds what row `r` held. -/
theorem inColumn_exchange (b : Basis n) (r : Fin n) (c c' : Fin (n + 1)) :
    (b.exchange r c).1.inColumn c' = if c = c' then b.inRow r else b.inColumn c' := by
  simp only [exchange, inRow, inColumn]
  rw [vector_get_set]
  split
  · rfl
  · exact var_get_informed _ _ _ _

end Basis

end Complementarity
