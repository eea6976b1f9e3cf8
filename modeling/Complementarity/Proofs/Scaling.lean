import Mathlib.Tactic.FieldSimp
import Complementarity.Proofs.Perturbation
import Complementarity.Proofs.Simulation

/-!
# Positive scaling

The data of a problem may be measured in other units: `Lcp.rescale` multiplies the vector by `a` and
the matrix by `b`.  Neither the column of the artificial variable nor the perturbation is scaled
with them, so the two tableaux differ by factors of their rows, of their columns and of the
polynomial coefficients.  The factors come from the variables (`Variable.unit`), and for positive
`a` and `b` no comparison comes out differently.

* **a pivot keeps the factors** — `Tableau.Rescaled.pivot`: the factors of a row and a column are
  those of the variables that stand there, before and after;
* **the same rows, ties included** — `Tableau.Rescaled.blockingRow_eq`: all limits of a ratio test
  are multiplied by one positive number, and their constant coefficients by `a`;
* **the same run** — `Lcp.simulation_rescale`, `Lcp.startAlongside_rescale`;
* **the same result in other units** — `Solver.solve_rescale`.
-/

namespace Complementarity

open Tableau Variable

variable {n : Nat}

/-! ## Factors of the constant coefficient -/

namespace Perturbed

/-- The polynomial with its constant coefficient multiplied by a number. -/
def stretch (a : ℚ) : Perturbed n →ₗ[ℚ] Perturbed n where
  toFun x := toLex (Fin.cons (a * ofLex x ⟨0, n.succ_pos⟩) fun k => ofLex x k.succ)
  map_add' x y := by
    refine ofLex_inj.1 (funext fun k => ?_)
    cases k using Fin.cases with
    | zero => exact mul_add a _ _
    | succ k => rfl
  map_smul' c x := by
    refine ofLex_inj.1 (funext fun k => ?_)
    cases k using Fin.cases with
    | zero => exact mul_left_comm a c _
    | succ k => rfl

theorem stretch_power_zero (a : ℚ) : stretch a (power 0 : Perturbed n) = a • power 0 := by
  refine ofLex_inj.1 (funext fun k => ?_)
  cases k using Fin.cases with
  | zero => rfl
  | succ k =>
    have hzero : (Pi.single 0 1 : Fin (n + 1) → ℚ) k.succ = 0 :=
      Pi.single_eq_of_ne (Fin.succ_ne_zero k) 1
    show (Pi.single 0 1 : Fin (n + 1) → ℚ) k.succ = a * (Pi.single 0 1 : Fin (n + 1) → ℚ) k.succ
    rw [hzero, mul_zero]

theorem stretch_power_succ (a : ℚ) (k : Fin n) :
    stretch a (power k.succ : Perturbed n) = power k.succ := by
  refine ofLex_inj.1 (funext fun j => ?_)
  cases j using Fin.cases with
  | zero =>
    have hzero : (Pi.single k.succ 1 : Fin (n + 1) → ℚ) 0 = 0 :=
      Pi.single_eq_of_ne (Fin.succ_ne_zero k).symm 1
    show a * (Pi.single k.succ 1 : Fin (n + 1) → ℚ) 0 = (Pi.single k.succ 1 : Fin (n + 1) → ℚ) 0
    rw [hzero, mul_zero]
  | succ j => rfl

/-- A positive factor of the constant coefficient keeps the lexicographic order. -/
theorem stretch_lt_stretch_iff {a : ℚ} (ha : 0 < a) {x y : Perturbed n} :
    stretch a x < stretch a y ↔ x < y := by
  refine StrictMono.lt_iff_lt (f := stretch a) ?_
  rintro x y ⟨i, heq, hlt⟩
  refine ⟨i, fun j hj => ?_, ?_⟩
  · cases j using Fin.cases with
    | zero => exact congrArg (a * ·) (heq 0 hj)
    | succ j => exact heq j.succ hj
  · cases i using Fin.cases with
    | zero => exact mul_lt_mul_of_pos_left hlt ha
    | succ i => exact hlt

end Perturbed

open Perturbed (stretch)

/-! ## Other units -/

/-- The problem in other units: the vector times `a` and the matrix times `b`. -/
def Lcp.rescale (p : Lcp ℚ n) (a b : ℚ) : Lcp ℚ n where
  q := Vector.ofFn fun r => a * p.q.get r
  m := Dense.ofFn fun i j => b * p.m.entry i j

/-- The factor of a variable if the matrix is multiplied by `b`, for a vector that stays as it is:
the `z_j` shrink as the matrix grows, but for the artificial variable. -/
def Variable.unit (b : ℚ) : Variable n → ℚ
  | .w _ => 1
  | .z i => if i = Fin.last n then 1 else b⁻¹

@[simp] theorem Variable.unit_w (b : ℚ) (i : Fin (n + 1)) : unit b (.w i) = 1 := rfl

@[simp] theorem Variable.unit_z_last (b : ℚ) : unit b (.z (Fin.last n)) = 1 := if_pos rfl

@[simp] theorem Variable.unit_z_castSucc (b : ℚ) (i : Fin n) : unit b (.z i.castSucc) = b⁻¹ :=
  if_neg i.castSucc_lt_last.ne

theorem Variable.unit_pos {b : ℚ} (hb : 0 < b) (u : Variable n) : 0 < unit b u := by
  cases u with
  | w i => exact one_pos
  | z i =>
    rw [unit]
    split
    · exact one_pos
    · exact inv_pos.2 hb

namespace Tableau

theorem polynomial_eq_ofFn (t : Tableau ℚ n) (r : Fin n) :
    t.polynomial r = List.ofFn (ofLex (t.value r)) := rfl

/-- The tableau `t'` states what `t` states with every variable multiplied by its factor and by
`a`.  The powers of the infinitesimal are not multiplied by `a`, so of each polynomial only the
constant coefficient is. -/
structure Rescaled (t t' : Tableau ℚ n) (basis : Basis n) (factor : Variable n → ℚ) (a : ℚ) :
    Prop where
  coefficient : ∀ r c, t'.coefficient r c =
    factor (basis.inRow r) * t.coefficient r c * (factor (basis.inColumn c))⁻¹
  value : ∀ r, t'.value r = factor (basis.inRow r) • stretch a (t.value r)

namespace Rescaled

variable {t t' : Tableau ℚ n} {basis : Basis n} {factor : Variable n → ℚ} {a : ℚ}
  (h : t.Rescaled t' basis factor a) (hfactor : ∀ u, 0 < factor u)

include h

theorem constant (r : Fin n) : t'.constant r = a * factor (basis.inRow r) * t.constant r := by
  rw [← ofLex_value_zero, h.value]
  show factor (basis.inRow r) * (a * t.constant r) = _
  ring

include hfactor

/-- **A pivot keeps the factors** of the variables, which trade their places. -/
theorem pivot (row : Fin n) (d : Fin (n + 1)) :
    (t.pivot row (coefficientColumn d)).Rescaled (t'.pivot row (coefficientColumn d))
      (basis.exchange row d).1 factor a := by
  have hrow := (hfactor (basis.inRow row)).ne'
  have hcolumn := (hfactor (basis.inColumn d)).ne'
  refine ⟨fun r c => ?_, fun r => ?_⟩
  · rw [coefficient_pivot, coefficient_pivot, Basis.inRow_exchange, Basis.inColumn_exchange]
    simp only [h.coefficient]
    by_cases hr : r = row
    · subst hr
      by_cases hc : c = d
      · subst hc
        simp only [if_true, mul_inv, inv_inv]
        ring
      · simp only [if_true, if_neg hc, if_neg (Ne.symm hc), mul_inv, inv_inv]
        field_simp
    · by_cases hc : c = d
      · subst hc
        simp only [if_neg hr, if_neg (Ne.symm hr), if_true, mul_inv, inv_inv]
        field_simp
      · simp only [if_neg hr, if_neg (Ne.symm hr), if_neg hc, if_neg (Ne.symm hc), mul_inv, inv_inv]
        field_simp
  · rw [value_pivot, value_pivot, Basis.inRow_exchange]
    simp only [h.coefficient, h.value]
    by_cases hr : r = row
    · subst hr
      simp only [if_true, map_smul, smul_smul, mul_inv, inv_inv]
      congr 1
      field_simp
    · simp only [if_neg hr, if_neg (Ne.symm hr), map_sub, map_smul, smul_sub, smul_smul, mul_inv,
        inv_inv]
      congr 2
      field_simp

omit h in
/-- The first pivot is no exception. -/
theorem start (h : t.Rescaled t' (Basis.initial n) factor a)
    (hone : ∀ r, t.coefficient r (Fin.last n) = 1) (hone' : ∀ r, t'.coefficient r (Fin.last n) = 1)
    (row : Fin n) :
    (State.start t row).tableau.Rescaled (State.start t' row).tableau (State.start t row).current
      factor a := by
  rw [State.start, State.start, enterArtificial_eq_pivot t row hone,
    enterArtificial_eq_pivot t' row hone']
  exact h.pivot hfactor row (Fin.last n)

/-- The limits of a ratio test are multiplied by the factor of the driving variable. -/
theorem limit (d : Fin (n + 1)) (r : Fin n) :
    t'.limit d r = factor (basis.inColumn d) • stretch a (t.limit d r) := by
  have hrow := (hfactor (basis.inRow r)).ne'
  simp only [Tableau.limit, h.coefficient, h.value, map_smul, smul_smul, mul_inv, inv_inv]
  congr 1
  field_simp

/-- **The same row blocks**, ties included. -/
theorem blockingRow_eq (ha : 0 < a) (d : Fin (n + 1)) : t'.blockingRow d = t.blockingRow d := by
  refine blockingRow_eq_of_alongside (fun r => ?_) fun r r' _ _ => Bool.eq_iff_iff.2 ?_
  · rw [h.coefficient, mul_right_comm]
    exact smul_neg_iff_of_pos_left (mul_pos (hfactor _) (inv_pos.2 (hfactor _)))
  · rw [ratio_eq_ofFn, ratio_eq_ofFn, ratio_eq_ofFn, ratio_eq_ofFn, lexLt_ofFn_iff, lexLt_ofFn_iff,
      toLex_ofLex, toLex_ofLex, toLex_ofLex, toLex_ofLex, h.limit hfactor, h.limit hfactor]
    exact (smul_lt_smul_iff_of_pos_left (hfactor _)).trans (Perturbed.stretch_lt_stretch_iff ha)

end Rescaled

end Tableau

/-! ## The same run -/

namespace Lcp

variable (p : Lcp ℚ n) (a b : ℚ)

/-- The two problems are loaded with the factors of their variables. -/
theorem rescaled_loaded :
    p.loaded.Rescaled (p.rescale a b).loaded (Basis.initial n) (unit b) a := by
  refine ⟨fun r c => ?_, fun r => ?_⟩
  · rw [Basis.inRow_initial, Basis.inColumn_initial, unit_w, one_mul]
    cases c using Fin.lastCases with
    | last => rw [coefficient_loaded_last, coefficient_loaded_last, unit_z_last, inv_one, mul_one]
    | cast j =>
      rw [coefficient_loaded_castSucc, coefficient_loaded_castSucc, unit_z_castSucc, inv_inv,
        rescale, Dense.entry_ofFn, mul_comm]
  · rw [Basis.inRow_initial, unit_w, one_smul, value_loaded, value_loaded, map_add, map_smul,
      Perturbed.stretch_power_zero, Perturbed.stretch_power_succ, smul_smul, rescale,
      vector_get_ofFn, mul_comm a]

variable {a b}

/-- The states of the two solves have the same place and differ by the factors of the variables. -/
theorem simulation_rescale (ha : 0 < a) (hb : 0 < b) :
    Simulation fun _ (s t : State ℚ n) =>
      s.SamePlace t ∧ s.tableau.Rescaled t.tableau s.current (unit b) a where
  samePlace h := h.1
  blockingRow h _ := h.2.blockingRow_eq (unit_pos hb) ha _
  pivotAt := by
    rintro k s t row ⟨hplace, hrescaled⟩ - -
    refine ⟨hplace.pivotAt row, ?_⟩
    have hpivot := hrescaled.pivot (unit_pos hb) row s.driving
    rw [State.pivotAt, State.pivotAt, hplace.driving]
    exact hpivot
  overflowingRow _ _ := by
    rw [overflowingRow_eq_none_iff.2 fun _ => rfl, overflowingRow_eq_none_iff.2 fun _ => rfl]

/-- **The artificial variable enters in the same row.** -/
theorem startAlongside_rescale (ha : 0 < a) (hb : 0 < b) (budget : Nat) :
    p.StartAlongside (fun _ (s t : State ℚ n) =>
      s.SamePlace t ∧ s.tableau.Rescaled t.tableau s.current (unit b) a) budget
      (p.rescale a b) := by
  have hloaded := p.rescaled_loaded a b
  have hvalue : ∀ r, (p.rescale a b).loaded.value r = stretch a (p.loaded.value r) := by
    intro r
    rw [hloaded.value, Basis.inRow_initial, unit_w, one_smul]
  have hlt : ∀ r r', lexLt ((p.rescale a b).loaded.polynomial r)
      ((p.rescale a b).loaded.polynomial r') =
        lexLt (p.loaded.polynomial r) (p.loaded.polynomial r') := by
    intro r r'
    rw [Bool.eq_iff_iff, polynomial_eq_ofFn, polynomial_eq_ofFn, polynomial_eq_ofFn,
      polynomial_eq_ofFn, lexLt_ofFn_iff, lexLt_ofFn_iff, hvalue, hvalue]
    exact Perturbed.stretch_lt_stretch_iff ha
  have hneg : ∀ r, lexNeg ((p.rescale a b).loaded.polynomial r) =
      lexNeg (p.loaded.polynomial r) := by
    intro r
    have hzero : stretch a (p.loaded.value r) < stretch a 0 ↔ p.loaded.value r < 0 :=
      Perturbed.stretch_lt_stretch_iff ha
    rw [map_zero] at hzero
    rw [Bool.eq_iff_iff, polynomial_eq_ofFn, polynomial_eq_ofFn, lexNeg_ofFn_iff, lexNeg_ofFn_iff,
      hvalue]
    exact hzero
  rcases start?_alongside hlt hneg with ⟨hstart, hstart'⟩ | ⟨row, hstart, hstart'⟩
  · exact .trivial hstart hstart'
  · exact .pivoted _ _ hstart hstart' ⟨State.SamePlace.start _ _ row,
      hloaded.start (unit_pos hb) p.coefficient_loaded_last
        (p.rescale a b).coefficient_loaded_last row⟩

end Lcp

/-! ## The same result in other units -/

/-- **Positive scaling.**  If the vector is multiplied by a positive `a` and the matrix by a
positive `b`, a solve with the same settings has the same status, counts as many iterations and
pivots and makes the same pivots, and its values are those of the original solve, the `w_i` times
`a` and the `z_i` times `a / b`.  Settings that allow no iteration are refused in both cases. -/
theorem Solver.solve_rescale (p : Lcp ℚ n) (hn : 0 < n) {a b : ℚ} (ha : 0 < a) (hb : 0 < b)
    (s s' : Solver ℚ) (hs : s'.settings = s.settings) :
    (s.settings.isUsable = true → ∃ o o', (s.solveSized p).1 = .ok o ∧
      (s'.solveSized (p.rescale a b)).1 = .ok o' ∧ o.SameCourse o' ∧
      ∀ i, o'.point.w.get i = a * o.point.w.get i ∧
        o'.point.z.get i = a / b * o.point.z.get i) ∧
    (s.settings.isUsable = false → (s.solveSized p).1 = .error .noIterations ∧
      (s'.solveSized (p.rescale a b)).1 = .error .noIterations) := by
  refine ⟨fun husable => ?_, fun hrefused => ?_⟩
  · have hsimulation := Lcp.simulation_rescale (n := n) ha hb
    have hstart := p.startAlongside_rescale ha hb (s.settings.budget n)
    refine ⟨_, _, s.solveSized_fst p hn husable,
      s'.solveSized_fst (p.rescale a b) hn (hs ▸ husable), ?_, fun i => ?_⟩
    · rw [hs]
      obtain ⟨hstatus, hiterations, hcount, hpivots⟩ := Course.mk.inj
        (hsimulation.course_run hstart s.diagnostics s'.diagnostics (s.workspace n)
          (s'.workspace n) (Point.zero ℚ n) (Point.zero ℚ n))
      exact ⟨hstatus, hiterations, hcount, hpivots⟩
    · rw [hs]
      have hpoint := hsimulation.point_run hstart s.diagnostics s'.diagnostics (s.workspace n)
        (s'.workspace n) (Point.zero ℚ n) (Point.zero ℚ n)
        (C := fun u x y => y = a * unit b u * x) (fun u => (mul_zero _).symm)
        (fun i => by rw [unit_w, mul_one, Lcp.rescale, vector_get_ofFn])
        (fun h r => h.2.constant r) i
      rwa [unit_w, mul_one, unit_z_castSucc, ← div_eq_mul_inv] at hpoint
  · exact ⟨solveSized_of_isUsable_eq_false (p.fault?_eq_none hn) hrefused,
      solveSized_of_isUsable_eq_false ((p.rescale a b).fault?_eq_none hn) (hs ▸ hrefused)⟩

/-- A problem with a tie, measured in other units. -/
theorem solve_rescale_tied :
    ((0 : ℚ) < 3 ∧ (0 : ℚ) < 1 / 2) ∧
      ∃ o, ((Solver.new ℚ {}).solveSized (tied.rescale 3 (1 / 2))).1 = .ok o ∧
        o.status = .nontrivialSolution ∧ o.pivots = [⟨1, 2⟩, ⟨0, 1⟩, ⟨1, 0⟩] ∧
        ∀ i, o.point.w.get i = 0 ∧ o.point.z.get i = 2 := by
  have hpos : (0 : ℚ) < 3 ∧ (0 : ℚ) < 1 / 2 := by norm_num
  have hsolve : ((Solver.new ℚ {}).solveSized tied).1.toOption.map
      (fun o => (o.status, o.pivots, o.point.w, o.point.z)) =
      some (.nontrivialSolution, [⟨1, 2⟩, ⟨0, 1⟩, ⟨1, 0⟩], #v[0, 0], #v[1 / 3, 1 / 3]) := by
    decide +kernel
  obtain ⟨o, o', ho, ho', hcourse, hpoint⟩ :=
    (Solver.solve_rescale tied (by decide) hpos.1 hpos.2 (Solver.new ℚ {}) (Solver.new ℚ {})
      rfl).1 rfl
  rw [ho] at hsolve
  simp only [Except.toOption, Option.map_some, Option.some.injEq, Prod.mk.injEq] at hsolve
  obtain ⟨hstatus, hpivots, hw, hz⟩ := hsolve
  refine ⟨hpos, o', ho', hcourse.status.trans hstatus, hcourse.pivots.trans hpivots, fun i => ?_⟩
  obtain ⟨hwi, hzi⟩ := hpoint i
  rw [hwi, hzi, hw, hz]
  fin_cases i <;> constructor <;> decide +kernel

end Complementarity
