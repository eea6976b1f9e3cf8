import Complementarity.Proofs.MatrixClasses
import Complementarity.Proofs.NoCycling
import Complementarity.Proofs.Ray

/-!
# When a solution is found

A run in exact arithmetic can only fail to find a solution by ending on a secondary ray.  What such
a ray says about the matrix decides the outcome for whole classes of matrices:

* **strictly semimonotone matrices** allow no secondary ray
  (`Lcp.SecondaryRay.not_isStrictlySemimonotone`), so a solution is always found;
* **copositive-plus matrices** allow one only if the problem is infeasible
  (`Lcp.SecondaryRay.not_isFeasible`): the direction of the ray is a list of multipliers under which
  the constants add up to something negative.  At a degenerate ray the artificial variable is zero,
  but its perturbed value is positive, and that settles the sign;
* **matrices that reverse no signs** allow one solution at most
  (`Lcp.IsSolution.eq_of_noSignReversal`).
-/

namespace Complementarity

open Matrix Variable

variable {n : Nat} {p : Lcp ℚ n}

/-- The linear part of a problem: some `z ≥ 0` has `q + M z ≥ 0`. -/
def Lcp.IsFeasible (p : Lcp ℚ n) : Prop :=
  ∃ z : Fin n → ℚ, 0 ≤ z ∧ ∀ i, 0 ≤ p.q.get i + (p.m.toMatrix *ᵥ z) i

theorem Lcp.IsSolution.isFeasible {y : Point ℚ n} (h : p.IsSolution y) : p.IsFeasible := by
  refine ⟨fun i => y.z.get i, h.z_nonneg, fun i => ?_⟩
  rw [Dense.mulVec_eq_sum, ← h.equation i]
  exact h.w_nonneg i

/-! ## What a ray says about the matrix -/

namespace Lcp.SecondaryRay

variable {x : Variable n → Perturbed n} {d : Variable n → ℚ}

/-- How the slack variables grow along a ray. -/
theorem direction_w (h : p.SecondaryRay x d) (i : Fin n) :
    d (.w i.castSucc) =
      (p.m.toMatrix *ᵥ fun j => d (.z j.castSucc)) i + d (artificial n) := by
  rw [h.direction.row i, Dense.mulVec_eq_sum]
  simp only [Pi.zero_apply, smul_eq_mul, mul_zero, zero_add]

theorem direction_mul (h : p.SecondaryRay x d) (i : Fin n) :
    d (.z i.castSucc) * d (.w i.castSucc) = 0 := by
  rcases h.complementary i with ⟨-, hd⟩ | ⟨-, hd⟩
  · rw [hd, mul_zero]
  · rw [hd, zero_mul]

theorem direction_z_smul (h : p.SecondaryRay x d) (i : Fin n) :
    d (.z i.castSucc) • x (.w i.castSucc) = 0 := by
  rcases h.complementary i with ⟨hx, -⟩ | ⟨-, hd⟩
  · rw [hx, smul_zero]
  · rw [hd, zero_smul]

theorem direction_w_smul (h : p.SecondaryRay x d) (i : Fin n) :
    d (.w i.castSucc) • x (.z i.castSucc) = 0 := by
  rcases h.complementary i with ⟨-, hd⟩ | ⟨hx, -⟩
  · rw [hd, zero_smul]
  · rw [hx, smul_zero]

/-- **Strictly semimonotone matrices allow no ray.**  Some slack variable would grow together with
its partner. -/
theorem not_isStrictlySemimonotone (h : p.SecondaryRay x d) : ¬ p.m.IsStrictlySemimonotone := by
  intro hm
  obtain ⟨k, hk⟩ := h.exists_ne_zero
  obtain ⟨i, hz, hproduct⟩ := hm (fun j => d (.z j.castSucc)) (fun j => h.direction_nonneg _)
    fun hzero => hk (congrFun hzero k)
  have hw : 0 < d (.w i.castSucc) := by
    rw [h.direction_w i]
    exact add_pos_of_pos_of_nonneg hproduct (h.direction_nonneg _)
  exact (mul_pos hz hw).ne' (h.direction_mul i)

/-- Some `z_i` grow and none shrinks. -/
theorem sum_direction_pos (h : p.SecondaryRay x d) : 0 < ∑ i : Fin n, d (.z i.castSucc) := by
  obtain ⟨k, hk⟩ := h.exists_ne_zero
  exact Finset.sum_pos' (fun i _ => h.direction_nonneg _)
    ⟨k, Finset.mem_univ k, lt_of_le_of_ne (h.direction_nonneg _) (Ne.symm hk)⟩

/-! ### Copositive-plus matrices -/

/-- The artificial variable does not grow, and the form vanishes in the direction of the ray. -/
theorem form_eq_zero (h : p.SecondaryRay x d) (hm : p.m.IsCopositivePlus) :
    d (artificial n) = 0 ∧
      (fun i : Fin n => d (.z i.castSucc)) ⬝ᵥ
        p.m.toMatrix *ᵥ (fun j : Fin n => d (.z j.castSucc)) = 0 := by
  have hform := hm.form_nonneg (fun j => d (.z j.castSucc)) fun j => h.direction_nonneg _
  have hsum : (fun i : Fin n => d (.z i.castSucc)) ⬝ᵥ
        p.m.toMatrix *ᵥ (fun j : Fin n => d (.z j.castSucc)) +
      (∑ i : Fin n, d (.z i.castSucc)) * d (artificial n) = 0 := by
    rw [dotProduct, Finset.sum_mul, ← Finset.sum_add_distrib]
    refine Finset.sum_eq_zero fun i _ => ?_
    rw [← mul_add, ← h.direction_w i]
    exact h.direction_mul i
  have hgrowth := mul_nonneg h.sum_direction_pos.le (h.direction_nonneg (artificial n))
  have hzero : (∑ i : Fin n, d (.z i.castSucc)) * d (artificial n) = 0 := by linarith
  exact ⟨(mul_eq_zero.1 hzero).resolve_left h.sum_direction_pos.ne', by linarith⟩

/-- With the growth of the `z_i` as multipliers, the rows of the matrix add up to minus the growth
of the slack variables. -/
theorem sum_direction_entry (h : p.SecondaryRay x d) (hm : p.m.IsCopositivePlus) (j : Fin n) :
    ∑ i : Fin n, d (.z i.castSucc) * p.m.entry i j = -d (.w j.castSucc) := by
  obtain ⟨hartificial, hform⟩ := h.form_eq_zero hm
  have hplus := congrFun (hm.plus _ (fun j => h.direction_nonneg _) hform) j
  rw [add_mulVec, Pi.add_apply, mulVec_transpose, Pi.zero_apply] at hplus
  rw [h.direction_w j, hartificial, add_zero]
  exact eq_neg_of_add_eq_zero_right hplus

/-- The same with vectors in the columns. -/
theorem sum_direction_smul {V : Type} [AddCommGroup V] [Module ℚ V] (h : p.SecondaryRay x d)
    (hm : p.m.IsCopositivePlus) (y : Fin n → V) :
    ∑ i : Fin n, d (.z i.castSucc) • ∑ j, p.m.entry i j • y j = -∑ j, d (.w j.castSucc) • y j := by
  simp only [Finset.smul_sum, smul_smul]
  rw [Finset.sum_comm, ← Finset.sum_neg_distrib]
  refine Finset.sum_congr rfl fun j _ => ?_
  rw [← Finset.sum_smul, h.sum_direction_entry hm j, neg_smul]

/-- With these multipliers the perturbed constants add up to something negative. -/
theorem sum_value_neg (h : p.SecondaryRay x d) (hm : p.m.IsCopositivePlus) :
    ∑ i : Fin n, d (.z i.castSucc) • p.loaded.value i < 0 := by
  have hzero : ∑ i : Fin n, d (.z i.castSucc) • x (.w i.castSucc) = 0 :=
    Finset.sum_eq_zero fun i _ => h.direction_z_smul i
  have hmatrix : ∑ i : Fin n, d (.z i.castSucc) • ∑ j, p.m.entry i j • x (.z j.castSucc) = 0 := by
    rw [h.sum_direction_smul hm, neg_eq_zero]
    exact Finset.sum_eq_zero fun j _ => h.direction_w_smul j
  have hartificial : 0 < (∑ i : Fin n, d (.z i.castSucc)) • x (artificial n) :=
    smul_pos h.sum_direction_pos h.artificial_pos
  -- weigh the rows of the augmented system and add them up
  have hrow : ∀ i : Fin n, d (.z i.castSucc) • x (.w i.castSucc) =
      d (.z i.castSucc) • p.loaded.value i +
        d (.z i.castSucc) • ∑ j, p.m.entry i j • x (.z j.castSucc) +
        d (.z i.castSucc) • x (artificial n) := by
    intro i
    rw [h.augmented.row i, ← value_loaded, smul_add, smul_add]
  simp only [hrow, Finset.sum_add_distrib, hmatrix, ← Finset.sum_smul, add_zero] at hzero
  rw [← neg_eq_of_add_eq_zero_left hzero]
  exact neg_neg_of_pos hartificial

/-- **Copositive-plus matrices allow a ray only for infeasible problems.** -/
theorem not_isFeasible (h : p.SecondaryRay x d) (hm : p.m.IsCopositivePlus) : ¬ p.IsFeasible := by
  rintro ⟨z, hz, hfeasible⟩
  have hproduct : ∑ i : Fin n, d (.z i.castSucc) * (p.m.toMatrix *ᵥ z) i ≤ 0 := by
    have hsum := h.sum_direction_smul hm z
    simp only [smul_eq_mul] at hsum
    simp only [Dense.mulVec_eq_sum, hsum, neg_nonpos]
    exact Finset.sum_nonneg fun j _ => mul_nonneg (h.direction_nonneg _) (hz j)
  have hrow : ∀ i : Fin n,
      0 ≤ p.loaded.value i + (p.m.toMatrix *ᵥ z) i • Perturbed.power 0 := by
    intro i
    have hsplit : p.loaded.value i + (p.m.toMatrix *ᵥ z) i • Perturbed.power 0 =
        (p.q.get i + (p.m.toMatrix *ᵥ z) i) • Perturbed.power 0 + Perturbed.power i.succ := by
      rw [value_loaded]
      module
    rw [hsplit]
    exact add_nonneg (smul_nonneg (hfeasible i) (Perturbed.power_pos 0).le)
      (Perturbed.power_pos i.succ).le
  have hsum : ∑ i : Fin n, d (.z i.castSucc) • p.loaded.value i =
      ∑ i : Fin n, d (.z i.castSucc) •
        (p.loaded.value i + (p.m.toMatrix *ᵥ z) i • Perturbed.power 0) +
      (-∑ i : Fin n, d (.z i.castSucc) * (p.m.toMatrix *ᵥ z) i) • Perturbed.power 0 := by
    rw [neg_smul, ← sub_eq_add_neg, Finset.sum_smul, ← Finset.sum_sub_distrib]
    refine Finset.sum_congr rfl fun i _ => ?_
    module
  have hnonneg : 0 ≤ ∑ i : Fin n, d (.z i.castSucc) • p.loaded.value i := by
    rw [hsum]
    refine add_nonneg (Finset.sum_nonneg fun i _ => ?_) ?_
    · exact smul_nonneg (h.direction_nonneg _) (hrow i)
    · exact smul_nonneg (neg_nonneg.2 hproduct) (Perturbed.power_pos 0).le
  exact (h.sum_value_neg hm).not_ge hnonneg

end Lcp.SecondaryRay

/-! ## Uniqueness -/

/-- For vectors that are not negative, the product is zero exactly if all its summands are. -/
theorem Lcp.isSolution_of_sum_eq_zero {y : Point ℚ n}
    (hequation : ∀ i, y.w.get i = p.q.get i + ∑ j, p.m.entry i j * y.z.get j)
    (hw : ∀ i, 0 ≤ y.w.get i) (hz : ∀ i, 0 ≤ y.z.get i)
    (hsum : ∑ i, y.w.get i * y.z.get i = 0) : p.IsSolution y := by
  refine ⟨hequation, hw, hz, fun i => ?_⟩
  have hsummands := (Finset.sum_eq_zero_iff_of_nonneg fun i _ => mul_nonneg (hw i) (hz i)).1 hsum
  exact hsummands i (Finset.mem_univ i)

/-- **Uniqueness.**  If the matrix reverses no signs, two solutions are equal: the signs of their
difference would be reversed. -/
theorem Lcp.IsSolution.eq_of_noSignReversal {x y : Point ℚ n} (hx : p.IsSolution x)
    (hy : p.IsSolution y) (hm : p.m.NoSignReversal) : x = y := by
  have hw : ∀ i, x.w.get i - y.w.get i =
      (p.m.toMatrix *ᵥ fun j => x.z.get j - y.z.get j) i := by
    intro i
    rw [hx.equation i, hy.equation i, Dense.mulVec_eq_sum]
    simp only [mul_sub, Finset.sum_sub_distrib]
    ring
  have hreversed : ∀ i, (x.z.get i - y.z.get i) * (x.w.get i - y.w.get i) ≤ 0 := by
    intro i
    have hxy := mul_nonneg (hx.w_nonneg i) (hy.z_nonneg i)
    have hyx := mul_nonneg (hy.w_nonneg i) (hx.z_nonneg i)
    have hexpand : (x.z.get i - y.z.get i) * (x.w.get i - y.w.get i) =
        x.w.get i * x.z.get i + y.w.get i * y.z.get i -
          (x.w.get i * y.z.get i + y.w.get i * x.z.get i) := by ring
    rw [hexpand, hx.complementary i, hy.complementary i]
    linarith
  have hz : (fun j => x.z.get j - y.z.get j) = 0 := by
    by_contra hne
    obtain ⟨i, hi⟩ := hm _ hne
    rw [← hw i] at hi
    exact (hreversed i).not_gt hi
  have hzero : ∀ i, x.z.get i = y.z.get i := fun i => sub_eq_zero.1 (congrFun hz i)
  obtain ⟨xw, xz⟩ := x
  obtain ⟨yw, yz⟩ := y
  obtain rfl : xz = yz := vector_ext hzero
  obtain rfl : xw = yw := vector_ext fun i => (hx.equation i).trans (hy.equation i).symm
  rfl

/-! ## When a solution is found -/

/-- A run that is not cut short finds a solution or a ray. -/
theorem Lcp.isSolved_of_ne_noSolution (p : Lcp ℚ n) {settings : Settings}
    (hbudget : iterationBound n ≤ settings.budget n) {d : Diagnostics} {workspace : Tableau ℚ n}
    {buffer : Point ℚ n} (h : (p.run settings d workspace buffer).1.status ≠ .noSolution) :
    (p.run settings d workspace buffer).1.status.isSolved = true := by
  have hconverges := p.status_run_ne_failedToConverge hbudget d workspace buffer
  cases hstatus : (p.run settings d workspace buffer).1.status with
  | trivialSolution | nontrivialSolution => rfl
  | noSolution => exact absurd hstatus h
  | failedToConverge => exact absurd hstatus hconverges

/-- A strictly semimonotone matrix has no rays. -/
theorem Lcp.status_run_ne_noSolution (p : Lcp ℚ n) (hm : p.m.IsStrictlySemimonotone)
    (settings : Settings) (d : Diagnostics) (workspace : Tableau ℚ n) (buffer : Point ℚ n) :
    (p.run settings d workspace buffer).1.status ≠ .noSolution := by
  intro hstatus
  obtain ⟨x, d, hray⟩ := p.exists_ray_of_noSolution hstatus
  exact hray.not_isStrictlySemimonotone hm

/-- **Completeness on copositive-plus matrices**, which include the positive semidefinite ones.
With a sufficient budget a solution is found exactly if the problem is feasible. -/
theorem Solver.isSolved_iff_isFeasible (s : Solver ℚ) {p : Problem ℚ} {lcp : Lcp ℚ p.dim}
    (hp : p.sized = .ok lcp) (hs : s.settings.isUsable = true) (hm : lcp.m.IsCopositivePlus) :
    (∀ (k : Nat) (m : Dense ℚ k k), m.IsPosSemidef → m.IsCopositivePlus) ∧
      ∃ o, (s.solve p).1 = .ok o ∧ (o.status = .noSolution → ¬ lcp.IsFeasible) ∧
        (iterationBound p.dim ≤ s.settings.budget p.dim →
          (o.status.isSolved = true ↔ lcp.IsFeasible)) := by
  have hinfeasible : (lcp.run s.settings s.diagnostics (s.workspace p.dim)
      (Point.zero ℚ p.dim)).1.status = .noSolution → ¬ lcp.IsFeasible := by
    intro hstatus
    obtain ⟨x, d, hray⟩ := lcp.exists_ray_of_noSolution hstatus
    exact hray.not_isFeasible hm
  refine ⟨fun _ _ => Dense.IsPosSemidef.isCopositivePlus, _, s.solve_fst hp hs, hinfeasible,
    fun hbudget => ⟨fun hsolved => ?_, fun hfeasible => ?_⟩⟩
  · exact (lcp.isSolution_run _ _ _ _ hsolved).isFeasible
  · exact lcp.isSolved_of_ne_noSolution hbudget fun hstatus => hinfeasible hstatus hfeasible

/-- A semidefinite matrix, with constants for which no `z` is feasible: the two rows of the matrix
are opposed to each other. -/
def opposed : Lcp ℚ 2 := ⟨#v[-1, 0], Dense.ofFn fun i j => if i = j then 1 else -1⟩

theorem isPosSemidef_opposed : opposed.m.IsPosSemidef := by
  intro x
  have hsquare : x ⬝ᵥ opposed.m.toMatrix *ᵥ x = (x 0 - x 1) ^ 2 := by
    simp only [dotProduct, Dense.mulVec_eq_sum, Fin.sum_univ_two, opposed, Dense.entry_ofFn,
      if_true, zero_ne_one, one_ne_zero, if_false]
    ring
  rw [hsquare]
  exact sq_nonneg _

theorem isSolved_iff_isFeasible_opposed :
    ∃ o, ((Solver.new ℚ {}).solve (.ofLcp opposed)).1 = .ok o ∧ o.status = .noSolution ∧
      ¬ opposed.IsFeasible := by
  have hstatus : ((Solver.new ℚ {}).solve (.ofLcp opposed)).1.toOption.map Outcome.status =
      some .noSolution := by decide +kernel
  have hsized : (Problem.ofLcp opposed).sized = .ok opposed := rfl
  obtain ⟨-, o, ho, hinfeasible, -⟩ := (Solver.new ℚ {}).isSolved_iff_isFeasible hsized rfl
    isPosSemidef_opposed.isCopositivePlus
  rw [ho] at hstatus
  have hray : o.status = .noSolution := Option.some.inj hstatus
  exact ⟨o, ho, hray, hinfeasible hray⟩

/-- **Strictly semimonotone matrices are always solved**, which include those that reverse no signs,
hence the positive definite ones and those with positive principal minors, such as that of the
exponential family.  If the matrix reverses no signs, the solution is the only one. -/
theorem Solver.isSolved_of_isStrictlySemimonotone (s : Solver ℚ) {p : Problem ℚ}
    {lcp : Lcp ℚ p.dim} (hp : p.sized = .ok lcp) (hs : s.settings.isUsable = true)
    (hm : lcp.m.IsStrictlySemimonotone) :
    ((∀ (k : Nat) (m : Dense ℚ k k), m.NoSignReversal → m.IsStrictlySemimonotone) ∧
      (∀ (k : Nat) (m : Dense ℚ k k), m.IsPosDef → m.NoSignReversal) ∧
      (∀ (k : Nat) (m : Dense ℚ k k), m.IsPMatrix → m.NoSignReversal) ∧
      ∀ k : Nat, ((Benchmark.murtyMatrix k).map fun a : Int => (a : ℚ)).IsPMatrix) ∧
      ∃ o, (s.solve p).1 = .ok o ∧ o.status ≠ .noSolution ∧
        (iterationBound p.dim ≤ s.settings.budget p.dim → o.status.isSolved = true) ∧
        (lcp.m.NoSignReversal → o.status.isSolved = true →
          lcp.IsSolution o.point ∧ ∀ y : Point ℚ p.dim,
            (∀ i, y.w.get i = lcp.q.get i + ∑ j, lcp.m.entry i j * y.z.get j) →
            (∀ i, 0 ≤ y.w.get i) → (∀ i, 0 ≤ y.z.get i) →
            ∑ i, y.w.get i * y.z.get i = 0 → y = o.point) := by
  have hsolution : (lcp.run s.settings s.diagnostics (s.workspace p.dim)
      (Point.zero ℚ p.dim)).1.status ≠ .noSolution := lcp.status_run_ne_noSolution hm _ _ _ _
  refine ⟨⟨fun _ _ => Dense.NoSignReversal.isStrictlySemimonotone,
    fun _ _ => Dense.IsPosDef.noSignReversal, fun _ _ => Dense.IsPMatrix.noSignReversal,
    Dense.isPMatrix_murty⟩, _, s.solve_fst hp hs, hsolution,
    fun hbudget => lcp.isSolved_of_ne_noSolution hbudget hsolution, fun hsigns hsolved => ?_⟩
  have hpoint := lcp.isSolution_run _ _ _ _ hsolved
  refine ⟨hpoint, fun y hequation hw hz hsum => ?_⟩
  exact (Lcp.isSolution_of_sum_eq_zero hequation hw hz hsum).eq_of_noSignReversal hpoint hsigns

theorem isPosDef_tied : tied.m.IsPosDef := by
  intro x hne
  have hsquares : x ⬝ᵥ tied.m.toMatrix *ᵥ x = x 0 ^ 2 + x 1 ^ 2 + (x 0 + x 1) ^ 2 := by
    simp only [dotProduct, Dense.mulVec_eq_sum, Fin.sum_univ_two, tied, Dense.entry_ofFn,
      if_true, zero_ne_one, one_ne_zero, if_false]
    ring
  have hentry : x 0 ≠ 0 ∨ x 1 ≠ 0 := by
    by_contra hzero
    rw [not_or, not_ne_iff, not_ne_iff] at hzero
    exact hne (funext (Fin.forall_fin_two.2 hzero))
  rw [hsquares]
  rcases hentry with h | h
  · have hpos := sq_pos_iff.2 h
    positivity
  · have hpos := sq_pos_iff.2 h
    positivity

theorem isSolved_tied :
    ∃ o, ((Solver.new ℚ {}).solve (.ofLcp tied)).1 = .ok o ∧ o.status.isSolved = true ∧
      tied.IsSolution o.point := by
  have hsized : (Problem.ofLcp tied).sized = .ok tied := rfl
  have hsigns := isPosDef_tied.noSignReversal
  obtain ⟨-, o, ho, -, hsolved, hunique⟩ :=
    (Solver.new ℚ {}).isSolved_of_isStrictlySemimonotone hsized rfl hsigns.isStrictlySemimonotone
  have hstatus := hsolved (by decide)
  exact ⟨o, ho, hstatus, (hunique hsigns hstatus).1⟩

end Complementarity
