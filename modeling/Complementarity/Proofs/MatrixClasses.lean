import Mathlib.Algebra.Order.Field.Rat
import Mathlib.LinearAlgebra.Matrix.Block
import Mathlib.LinearAlgebra.Matrix.ToLinearEquiv
import Mathlib.Tactic.FieldSimp
import Mathlib.Tactic.Linarith
import Complementarity.Benchmark.Generated
import Complementarity.Scalar.Instances

/-!
# Classes of matrices

The classes of matrices for which the outcome of a solve can be told beforehand.  None of them asks
for symmetry.  What is proved here:

* **copositive-plus matrices** include the positive semidefinite ones
  (`IsPosSemidef.isCopositivePlus`);
* **strictly semimonotone matrices** include those that reverse no signs
  (`NoSignReversal.isStrictlySemimonotone`), among which are the positive definite ones
  (`IsPosDef.noSignReversal`) and those with positive principal minors
  (`IsPMatrix.noSignReversal`);
* **the triangular matrices of the exponential family** have positive principal minors
  (`isPMatrix_murty`).

The one argument is that about minors: adding something to the diagonal of a matrix with positive
principal minors keeps its determinant positive (`IsPMatrix.det_reinforced_pos`), while a vector
whose signs are all reversed would be in the kernel of such a sum.
-/

namespace Complementarity

open Matrix

variable {n : Nat}

namespace Dense

/-- The matrix with the same entries. -/
def toMatrix (m : Dense ℚ n n) : Matrix (Fin n) (Fin n) ℚ := Matrix.of m.entry

theorem mulVec_eq_sum (m : Dense ℚ n n) (x : Fin n → ℚ) (i : Fin n) :
    (m.toMatrix *ᵥ x) i = ∑ j, m.entry i j * x j := rfl

/-- `xᵀ M x ≥ 0` for all `x`. -/
def IsPosSemidef (m : Dense ℚ n n) : Prop := ∀ x, 0 ≤ x ⬝ᵥ m.toMatrix *ᵥ x

/-- `xᵀ M x > 0` for all nonzero `x`. -/
def IsPosDef (m : Dense ℚ n n) : Prop := ∀ x, x ≠ 0 → 0 < x ⬝ᵥ m.toMatrix *ᵥ x

/-- `xᵀ M x ≥ 0` for all `x ≥ 0`, and `(M + Mᵀ) x = 0` for those for which it is zero. -/
structure IsCopositivePlus (m : Dense ℚ n n) : Prop where
  form_nonneg : ∀ x, 0 ≤ x → 0 ≤ x ⬝ᵥ m.toMatrix *ᵥ x
  plus : ∀ x, 0 ≤ x → x ⬝ᵥ m.toMatrix *ᵥ x = 0 → (m.toMatrix + m.toMatrixᵀ) *ᵥ x = 0

/-- Every nonzero `x ≥ 0` has a positive entry `x_i` for which `(M x)_i` is positive. -/
def IsStrictlySemimonotone (m : Dense ℚ n n) : Prop :=
  ∀ x, 0 ≤ x → x ≠ 0 → ∃ i, 0 < x i ∧ 0 < (m.toMatrix *ᵥ x) i

/-- Every nonzero `x` has an entry `x_i` for which `x_i (M x)_i` is positive. -/
def NoSignReversal (m : Dense ℚ n n) : Prop :=
  ∀ x, x ≠ 0 → ∃ i, 0 < x i * (m.toMatrix *ᵥ x) i

/-- All principal minors are positive. -/
def IsPMatrix (m : Dense ℚ n n) : Prop :=
  ∀ K : Finset (Fin n), 0 < (m.toMatrix.submatrix (Subtype.val : K → Fin n) Subtype.val).det

variable {m : Dense ℚ n n}

/-! ## Copositive-plus matrices -/

/-- The quadratic form next to `x`, in the direction of a unit vector. -/
theorem form_add_smul_single (m : Dense ℚ n n) (x : Fin n → ℚ) (i : Fin n) (c : ℚ) :
    (x + c • Pi.single i 1) ⬝ᵥ m.toMatrix *ᵥ (x + c • Pi.single i 1) =
      x ⬝ᵥ m.toMatrix *ᵥ x + c * ((m.toMatrix + m.toMatrixᵀ) *ᵥ x) i + c ^ 2 * m.entry i i := by
  have hsymmetric : ((m.toMatrix + m.toMatrixᵀ) *ᵥ x) i =
      Pi.single i 1 ⬝ᵥ m.toMatrix *ᵥ x + x ⬝ᵥ m.toMatrix *ᵥ Pi.single i 1 := by
    rw [add_mulVec, Pi.add_apply, single_one_dotProduct, dotProduct_mulVec, dotProduct_single_one,
      mulVec_transpose]
  have hdiagonal : Pi.single i 1 ⬝ᵥ m.toMatrix *ᵥ Pi.single i 1 = m.entry i i := by
    rw [single_one_dotProduct, mulVec_single_one]
    rfl
  rw [hsymmetric, ← hdiagonal, mulVec_add, mulVec_smul, dotProduct_add, add_dotProduct,
    add_dotProduct, dotProduct_smul, dotProduct_smul, smul_dotProduct, smul_dotProduct]
  simp only [smul_eq_mul]
  ring

/-- **Semidefinite matrices are copositive-plus**: where the form vanishes it has a minimum. -/
theorem IsPosSemidef.isCopositivePlus (h : m.IsPosSemidef) : m.IsCopositivePlus := by
  refine ⟨fun x _ => h x, fun x _ hzero => ?_⟩
  funext i
  have hentry : 0 ≤ m.entry i i := by
    have hunit := h (0 + (1 : ℚ) • Pi.single i 1)
    rw [form_add_smul_single] at hunit
    simpa using hunit
  have hline : ∀ c : ℚ, 0 ≤ c * ((m.toMatrix + m.toMatrixᵀ) *ᵥ x) i + c ^ 2 * m.entry i i := by
    intro c
    have hform := h (x + c • Pi.single i 1)
    rwa [form_add_smul_single, hzero, zero_add] at hform
  rw [Pi.zero_apply]
  by_contra hne
  -- the slope is not zero, so the form is negative a little way down
  generalize ((m.toMatrix + m.toMatrixᵀ) *ᵥ x) i = slope at hline hne
  have hdown := hline (-slope / (m.entry i i + 1))
  have hpos : 0 < m.entry i i + 1 := by linarith
  have hvalue : -slope / (m.entry i i + 1) * slope +
      (-slope / (m.entry i i + 1)) ^ 2 * m.entry i i = -(slope ^ 2 / (m.entry i i + 1) ^ 2) := by
    field_simp
    ring
  rw [hvalue] at hdown
  have hsquare : 0 < slope ^ 2 / (m.entry i i + 1) ^ 2 :=
    div_pos (sq_pos_iff.2 hne) (pow_pos hpos 2)
  linarith

/-! ## Strictly semimonotone matrices -/

/-- **Matrices that reverse no signs are strictly semimonotone.** -/
theorem NoSignReversal.isStrictlySemimonotone (h : m.NoSignReversal) :
    m.IsStrictlySemimonotone := by
  intro x hx hne
  obtain ⟨i, hi⟩ := h x hne
  have hpos : 0 < x i := lt_of_le_of_ne (hx i) fun hzero => by
    rw [← hzero, zero_mul] at hi
    exact lt_irrefl 0 hi
  exact ⟨i, hpos, pos_of_mul_pos_right hi hpos.le⟩

/-- **Definite matrices reverse no signs**: one of the summands of the form is positive. -/
theorem IsPosDef.noSignReversal (h : m.IsPosDef) : m.NoSignReversal := by
  intro x hne
  obtain ⟨i, -, hi⟩ := Finset.exists_lt_of_sum_lt (s := Finset.univ) (f := fun _ => (0 : ℚ))
    (by simpa [dotProduct] using h x hne)
  exact ⟨i, hi⟩

/-! ## Positive principal minors -/

/-- The rows of `J` as they are, with `d` added to the diagonal in the rows of `T`, and unit vectors
for the other rows. -/
def reinforcedRow (m : Dense ℚ n n) (d : Fin n → ℚ) (J T : Finset (Fin n)) (i : Fin n) :
    Fin n → ℚ :=
  if i ∈ J then
    if i ∈ T then m.toMatrix.row i + d i • Pi.single i 1 else m.toMatrix.row i
  else Pi.single i 1

/-- The matrix with these rows. -/
def reinforced (m : Dense ℚ n n) (d : Fin n → ℚ) (J T : Finset (Fin n)) :
    Matrix (Fin n) (Fin n) ℚ :=
  Matrix.of (m.reinforcedRow d J T)

/-- Without anything added, the determinant is that of a principal submatrix. -/
theorem det_reinforced_empty (m : Dense ℚ n n) (d : Fin n → ℚ) (J : Finset (Fin n)) :
    (m.reinforced d J ∅).det =
      (m.toMatrix.submatrix (Subtype.val : J → Fin n) Subtype.val).det := by
  have hunit : ∀ i, i ∉ J → ∀ j, m.reinforced d J ∅ i j = (Pi.single i 1 : Fin n → ℚ) j :=
    fun i hi j => congrFun (if_neg hi) j
  have hrow : ∀ i, i ∈ J → ∀ j, m.reinforced d J ∅ i j = m.toMatrix i j :=
    fun i hi j => congrFun ((if_pos hi).trans (if_neg (Finset.notMem_empty i))) j
  have hone : toSquareBlockProp (m.reinforced d J ∅) (fun i => ¬ i ∈ J) = 1 := by
    ext i j
    rw [toSquareBlockProp_def, of_apply, hunit _ i.2, one_apply, Pi.single_apply]
    simp only [Subtype.ext_iff, eq_comm]
  have hblock : toSquareBlockProp (m.reinforced d J ∅) (fun i => i ∈ J) =
      m.toMatrix.submatrix (Subtype.val : J → Fin n) Subtype.val := by
    ext i j
    rw [toSquareBlockProp_def, of_apply, hrow _ i.2]
    rfl
  rw [twoBlockTriangular_det _ (· ∈ J), hone, det_one, mul_one, hblock]
  · congr!
  · intro i hi j hj
    rw [hunit i hi, Pi.single_eq_of_ne]
    rintro rfl
    exact hi hj

/-- The determinant is linear in what is added to one row. -/
theorem det_reinforced_insert (m : Dense ℚ n n) (d : Fin n → ℚ) {J T : Finset (Fin n)} {i : Fin n}
    (hJ : i ∈ J) (hT : i ∉ T) :
    (m.reinforced d J (insert i T)).det =
      (m.reinforced d J T).det + d i * (m.reinforced d (J.erase i) T).det := by
  have hadded : m.reinforcedRow d J (insert i T) =
      Function.update (m.reinforcedRow d J T) i (m.toMatrix.row i + d i • Pi.single i 1) := by
    funext j
    by_cases hj : j = i
    · subst hj
      simp [reinforcedRow, hJ]
    · simp [reinforcedRow, hj]
  have hkept : Function.update (m.reinforcedRow d J T) i (m.toMatrix.row i) =
      m.reinforcedRow d J T := by
    rw [Function.update_eq_self_iff]
    simp [reinforcedRow, hJ, hT]
  have herased : Function.update (m.reinforcedRow d J T) i (Pi.single i 1) =
      m.reinforcedRow d (J.erase i) T := by
    funext j
    by_cases hj : j = i
    · subst hj
      simp [reinforcedRow]
    · simp [reinforcedRow, hj]
  calc (m.reinforced d J (insert i T)).det
      = ((m.reinforced d J T).updateRow i (m.toMatrix.row i + d i • Pi.single i 1)).det :=
        congrArg (fun rows => (Matrix.of rows).det) hadded
    _ = ((m.reinforced d J T).updateRow i (m.toMatrix.row i)).det +
          d i * ((m.reinforced d J T).updateRow i (Pi.single i 1)).det := by
        rw [det_updateRow_add, det_updateRow_smul]
    _ = (m.reinforced d J T).det + d i * (m.reinforced d (J.erase i) T).det :=
        congrArg₂ (fun rows rows' => (Matrix.of rows).det + d i * (Matrix.of rows').det) hkept
          herased

/-- **Adding to the diagonal keeps the determinant positive.** -/
theorem IsPMatrix.det_reinforced_pos (h : m.IsPMatrix) {d : Fin n → ℚ} (hd : 0 ≤ d)
    (J T : Finset (Fin n)) : 0 < (m.reinforced d J T).det := by
  induction T using Finset.induction_on generalizing J with
  | empty =>
    rw [det_reinforced_empty]
    exact h J
  | insert i T hT ih =>
    by_cases hJ : i ∈ J
    · rw [det_reinforced_insert m d hJ hT]
      exact add_pos_of_pos_of_nonneg (ih J) (mul_nonneg (hd i) (ih (J.erase i)).le)
    · have hsame : m.reinforcedRow d J (insert i T) = m.reinforcedRow d J T := by
        funext j
        by_cases hj : j = i
        · subst hj
          simp [reinforcedRow, hJ]
        · simp [reinforcedRow, hj]
      rw [reinforced, hsame]
      exact ih J

/-- **Positive principal minors leave no sign reversed.**  A vector whose signs are all reversed is
in the kernel of the matrix with a suitable diagonal added in the rows where it is not zero. -/
theorem IsPMatrix.noSignReversal (h : m.IsPMatrix) : m.NoSignReversal := by
  intro x hne
  by_contra hnone
  have hreversed : ∀ i, x i * (m.toMatrix *ᵥ x) i ≤ 0 := fun i => not_lt.1 fun hi => hnone ⟨i, hi⟩
  let d : Fin n → ℚ := fun i => -((m.toMatrix *ᵥ x) i / x i)
  let J : Finset (Fin n) := Finset.univ.filter fun i => x i ≠ 0
  have hd : 0 ≤ d := by
    intro i
    have hquotient : (m.toMatrix *ᵥ x) i / x i = x i * (m.toMatrix *ᵥ x) i / (x i) ^ 2 := by
      by_cases hi : x i = 0
      · simp [hi]
      · field_simp
    simp only [d, Pi.zero_apply, hquotient, neg_nonneg]
    exact div_nonpos_of_nonpos_of_nonneg (hreversed i) (sq_nonneg _)
  have hkernel : m.reinforced d J Finset.univ *ᵥ x = 0 := by
    funext i
    show m.reinforcedRow d J Finset.univ i ⬝ᵥ x = 0
    rw [reinforcedRow]
    by_cases hi : x i = 0
    · have hJ : i ∉ J := by simp [J, hi]
      rw [if_neg hJ, single_one_dotProduct, hi]
    · have hJ : i ∈ J := by simp [J, hi]
      have hproduct : m.toMatrix.row i ⬝ᵥ x = (m.toMatrix *ᵥ x) i := rfl
      rw [if_pos hJ, if_pos (Finset.mem_univ i), add_dotProduct, smul_dotProduct,
        single_one_dotProduct, hproduct, smul_eq_mul]
      simp only [d]
      field_simp
      ring
  have hdet := exists_mulVec_eq_zero_iff.1 ⟨x, hne, hkernel⟩
  exact (h.det_reinforced_pos hd J Finset.univ).ne' hdet

/-- **The exponential family.**  A triangular matrix with ones on the diagonal has principal minors
one. -/
theorem isPMatrix_murty (n : Nat) :
    ((Benchmark.murtyMatrix n).map fun a : Int => (a : ℚ)).IsPMatrix := by
  intro K
  have hentry : ∀ i j, ((Benchmark.murtyMatrix n).map fun a : Int => (a : ℚ)).toMatrix i j =
      if j < i then 2 else if i = j then 1 else 0 := by
    intro i j
    rw [toMatrix, of_apply, entry_map, Benchmark.murtyMatrix, entry_ofFn]
    split
    · rfl
    · split <;> rfl
  rw [det_of_isLowerTriangular]
  · simp [hentry]
  · intro i j hij
    have hlt : i.val < j.val := hij
    rw [submatrix_apply, hentry, if_neg hlt.not_gt, if_neg hlt.ne]

end Dense

end Complementarity
