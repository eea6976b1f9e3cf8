import Mathlib.Tactic.FieldSimp
import Complementarity.Proofs.Lexicographic
import Complementarity.Tableau.Basic

/-!
# Pivoting exchanges two variables

A rational tableau is read as the system of its row equations, with any vectors in place of the
powers of the infinitesimal: real numbers, zeros, or the powers themselves.  What is proved here:

* **the equations survive a pivot** — `satisfied_pivot`: the equations hold before a pivot
  exactly if they hold after it with the values of the two exchanged variables traded;
* **a pivot undoes itself** — `pivot_pivot`;
* **the first pivot is no exception** — `enterArtificial_eq_pivot`: on a column of ones the
  subtraction of rows is the general pivot.
-/

namespace Complementarity.Tableau

variable {n : Nat}

/-! ## Columns -/

@[simp] theorem coefficientColumn_inj {c d : Fin (n + 1)} :
    coefficientColumn c = coefficientColumn d ↔ c = d := by
  simp [coefficientColumn, Fin.ext_iff]

@[simp] theorem polynomialColumn_ne_coefficientColumn (k c : Fin (n + 1)) :
    polynomialColumn k ≠ coefficientColumn c := by
  have := c.isLt
  simp only [polynomialColumn, coefficientColumn, ne_eq, Fin.mk.injEq]
  omega

/-! ## Entries of a rational tableau -/

theorem isZero_iff (x : ℚ) : Scalar.isZero x = true ↔ x = 0 := by
  simp [Scalar.isZero]

/-- The entries after a pivot.  Leaving a row alone whose entry in the driving column is zero makes
no difference to exact arithmetic. -/
theorem entry_pivot_eq (t : Tableau ℚ n) (b r : Fin n) (d c : Fin (2 * n + 2)) :
    (t.pivot b d).entry r c =
      if r = b then if c = d then (t.entry b d)⁻¹ else -(t.entry b c * (t.entry b d)⁻¹)
      else if c = d then t.entry r d * (t.entry b d)⁻¹
      else t.entry r c - t.entry b c * (t.entry r d * (t.entry b d)⁻¹) := by
  rw [entry_pivot]
  simp only [one_div, isZero_iff]
  by_cases hr : r = b
  · rw [if_pos hr, if_pos hr]
  · rw [if_neg hr, if_neg hr]
    by_cases hz : t.entry r d = 0
    · rw [if_pos hz, hz, zero_mul, mul_zero, sub_zero]
      split
      · rename_i hc
        rw [hc, hz]
      · rfl
    · rw [if_neg hz]

/-- **The first pivot is a pivot.**  On a column of ones, subtracting the row and leaving the
column as it is comes to the same as pivoting there. -/
theorem enterArtificial_eq_pivot (t : Tableau ℚ n) (b : Fin n)
    (hone : ∀ r, t.entry r artificialColumn = 1) :
    t.enterArtificial b = t.pivot b artificialColumn := by
  refine ext fun r c => ?_
  rw [entry_enterArtificial, entry_pivot_eq, hone b, hone r]
  by_cases hc : c = artificialColumn
  · simp [hc, hone r]
  · by_cases hr : r = b <;> simp [hc, hr]

/-- **A pivot undoes itself.** -/
theorem pivot_pivot (t : Tableau ℚ n) (b : Fin n) (d : Fin (2 * n + 2))
    (hpivot : t.entry b d ≠ 0) : (t.pivot b d).pivot b d = t := by
  refine ext fun r c => ?_
  simp only [entry_pivot_eq, if_true, inv_inv]
  by_cases hr : r = b
  · subst hr
    by_cases hc : c = d
    · simp [hc]
    · simp only [if_true, if_neg hc]
      field_simp
  · by_cases hc : c = d
    · simp only [if_neg hr, hc, if_true]
      field_simp
    · simp only [if_neg hr, if_neg hc]
      field_simp
      ring

/-! ## Row equations -/

section Equations

variable {V : Type} [AddCommGroup V] [Module ℚ V]

/-- The polynomial of row `r` with the vectors `g` for the powers of the infinitesimal. -/
def valueAt (t : Tableau ℚ n) (g : Fin (n + 1) → V) (r : Fin n) : V :=
  ∑ k, t.entry r (polynomialColumn k) • g k

/-- The equations of the rows hold for the values `y` of the row variables and `x` of the column
variables. -/
def Satisfied (t : Tableau ℚ n) (g : Fin (n + 1) → V) (y : Fin n → V) (x : Fin (n + 1) → V) :
    Prop :=
  ∀ r, y r = t.valueAt g r + ∑ c, t.coefficient r c • x c

/-- By how much the equation of row `r` fails. -/
def defect (t : Tableau ℚ n) (g : Fin (n + 1) → V) (y : Fin n → V) (x : Fin (n + 1) → V)
    (r : Fin n) : V :=
  y r - (t.valueAt g r + ∑ c, t.coefficient r c • x c)

theorem satisfied_iff_defect (t : Tableau ℚ n) (g : Fin (n + 1) → V) (y : Fin n → V)
    (x : Fin (n + 1) → V) : t.Satisfied g y x ↔ ∀ r, t.defect g y x r = 0 := by
  simp only [Satisfied, defect, sub_eq_zero]

/-- The polynomial of a row after a pivot. -/
theorem valueAt_pivot (t : Tableau ℚ n) (g : Fin (n + 1) → V) (b r : Fin n) (d : Fin (n + 1)) :
    (t.pivot b (coefficientColumn d)).valueAt g r =
      if r = b then -(t.coefficient b d)⁻¹ • t.valueAt g b
      else t.valueAt g r - (t.coefficient r d * (t.coefficient b d)⁻¹) • t.valueAt g b := by
  unfold valueAt coefficient
  by_cases hr : r = b
  · simp only [entry_pivot_eq, polynomialColumn_ne_coefficientColumn, hr, if_true, if_false,
      Finset.smul_sum]
    refine Finset.sum_congr rfl fun k _ => ?_
    module
  · simp only [entry_pivot_eq, polynomialColumn_ne_coefficientColumn, hr, if_false,
      Finset.smul_sum, ← Finset.sum_sub_distrib]
    refine Finset.sum_congr rfl fun k _ => ?_
    module

/-- The coefficients after a pivot. -/
theorem coefficient_pivot (t : Tableau ℚ n) (b r : Fin n) (c d : Fin (n + 1)) :
    (t.pivot b (coefficientColumn d)).coefficient r c =
      if r = b then
        if c = d then (t.coefficient b d)⁻¹ else -(t.coefficient b c * (t.coefficient b d)⁻¹)
      else if c = d then t.coefficient r d * (t.coefficient b d)⁻¹
      else t.coefficient r c - t.coefficient b c * (t.coefficient r d * (t.coefficient b d)⁻¹) := by
  simp only [coefficient, entry_pivot_eq, coefficientColumn_inj]

/-- The part of a row equation that a pivot in column `d` does not rewrite. -/
theorem sum_coefficient (t : Tableau ℚ n) (x : Fin (n + 1) → V) (r : Fin n) (d : Fin (n + 1)) :
    ∑ c, t.coefficient r c • x c =
      t.coefficient r d • x d + ∑ c ∈ Finset.univ.erase d, t.coefficient r c • x c :=
  (Finset.add_sum_erase _ _ (Finset.mem_univ d)).symm

/-- The row sums after a pivot, at traded values. -/
theorem sum_coefficient_pivot (t : Tableau ℚ n) (x : Fin (n + 1) → V) (v : V) (b r : Fin n)
    (d : Fin (n + 1)) :
    ∑ c, (t.pivot b (coefficientColumn d)).coefficient r c • Function.update x d v c =
      if r = b then (t.coefficient b d)⁻¹ • v -
        (t.coefficient b d)⁻¹ • ∑ c ∈ Finset.univ.erase d, t.coefficient b c • x c
      else (t.coefficient r d * (t.coefficient b d)⁻¹) • v +
        (∑ c ∈ Finset.univ.erase d, t.coefficient r c • x c -
          (t.coefficient r d * (t.coefficient b d)⁻¹) •
            ∑ c ∈ Finset.univ.erase d, t.coefficient b c • x c) := by
  rw [sum_coefficient _ _ r d, Function.update_self, coefficient_pivot]
  by_cases hr : r = b
  · simp only [if_pos hr, if_true, Finset.smul_sum]
    rw [sub_eq_add_neg, ← Finset.sum_neg_distrib]
    congr 1
    refine Finset.sum_congr rfl fun c hc => ?_
    have hcd : c ≠ d := Finset.ne_of_mem_erase hc
    rw [coefficient_pivot, if_pos hr, if_neg hcd, Function.update_of_ne hcd]
    module
  · simp only [if_neg hr, if_true, Finset.smul_sum, ← Finset.sum_sub_distrib]
    congr 1
    refine Finset.sum_congr rfl fun c hc => ?_
    have hcd : c ≠ d := Finset.ne_of_mem_erase hc
    rw [coefficient_pivot, if_neg hr, if_neg hcd, Function.update_of_ne hcd]
    module

/-- A pivot combines the defects of the rows as it combines the rows. -/
theorem defect_pivot (t : Tableau ℚ n) (g : Fin (n + 1) → V) (y : Fin n → V) (x : Fin (n + 1) → V)
    (b r : Fin n) (d : Fin (n + 1)) (hpivot : t.coefficient b d ≠ 0) :
    (t.pivot b (coefficientColumn d)).defect g (Function.update y b (x d))
        (Function.update x d (y b)) r =
      if r = b then -(t.coefficient b d)⁻¹ • t.defect g y x b
      else t.defect g y x r - (t.coefficient r d * (t.coefficient b d)⁻¹) • t.defect g y x b := by
  unfold defect
  rw [sum_coefficient_pivot, valueAt_pivot, sum_coefficient t x b d, sum_coefficient t x r d]
  by_cases hr : r = b
  · subst hr
    simp only [if_true, Function.update_self]
    match_scalars <;> field_simp
  · simp only [if_neg hr, Function.update_of_ne hr]
    match_scalars <;> field_simp
    ring

/-- **A pivot is an exact exchange.**  The equations hold after it, with the values of the two
exchanged variables traded, exactly if they held before. -/
theorem satisfied_pivot (t : Tableau ℚ n) (g : Fin (n + 1) → V) (y : Fin n → V)
    (x : Fin (n + 1) → V) (b : Fin n) (d : Fin (n + 1)) (hpivot : t.coefficient b d ≠ 0) :
    (t.pivot b (coefficientColumn d)).Satisfied g (Function.update y b (x d))
        (Function.update x d (y b)) ↔ t.Satisfied g y x := by
  rw [satisfied_iff_defect, satisfied_iff_defect]
  constructor
  · intro h
    have hb : t.defect g y x b = 0 := by
      have := h b
      rw [defect_pivot t g y x b b d hpivot, if_pos rfl, neg_smul, neg_eq_zero,
        smul_eq_zero_iff_right (inv_ne_zero hpivot)] at this
      exact this
    intro r
    by_cases hr : r = b
    · rw [hr]
      exact hb
    · have := h r
      rwa [defect_pivot t g y x b r d hpivot, if_neg hr, hb, smul_zero, sub_zero] at this
  · intro h r
    rw [defect_pivot t g y x b r d hpivot, h b, h r]
    simp

end Equations

end Complementarity.Tableau
