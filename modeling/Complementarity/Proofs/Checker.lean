import Mathlib.Algebra.BigOperators.Fin
import Complementarity.Proofs.Completeness
import Complementarity.Proofs.Reuse
import Complementarity.Proofs.Sizes
import Complementarity.Verification

/-!
# Verification in exact arithmetic

Over the rationals the loops of `Metrics` compute what they stand for: a row of `w - q - M z`, the
inner product of the two vectors, and extreme entries.

* **what the verdict says** — `Lcp.isWithin_iff`: every residual, the inner product and every
  entry are within the tolerance, whatever its sign;
* **an exact verdict** — `Lcp.isWithin_zero_iff`: with tolerance zero the verdict says that the
  pair is a solution.  Both come together in `Lcp.isWithin_metrics_iff`;
* **solutions pass** — `Lcp.IsSolution.isWithin`: the measures of a solution are within any
  tolerance that is not negative;
* **nothing is rejected** — `Solver.exists_verifySized`: a solver that verifies its results accepts
  all of them, with tolerance zero too, whatever it has been used for before.
-/

namespace Complementarity

/-! ## The loops -/

theorem Scalar.abs_rat (r : ℚ) : Scalar.abs r = |r| := by
  unfold Scalar.abs
  by_cases hr : r < 0
  · rw [abs_of_neg hr]
    exact if_pos hr
  · rw [abs_of_nonneg (not_lt.1 hr)]
    exact if_neg hr

/-- A bound that is not positive is a bound on the least entry exactly if it is one on all entries.
The least entry of nothing is zero. -/
theorem Scalar.le_minimum_iff {xs : List ℚ} {bound : ℚ} (hbound : bound ≤ 0) :
    bound ≤ Scalar.minimum xs ↔ ∀ x ∈ xs, bound ≤ x := by
  cases xs with
  | nil => exact iff_of_true hbound (List.forall_mem_nil _)
  | cons first rest =>
    have hmin : (fun least x : ℚ => if x < least then x else least) =
        fun least x => min least x := by
      funext least x
      rw [min_comm, min_def_lt]
    show bound ≤ rest.foldl (fun least x : ℚ => if x < least then x else least) first ↔ _
    rw [hmin, le_foldl_min_iff (fun x => x), List.forall_mem_cons]

/-- The same for the entries of a vector. -/
theorem Scalar.le_minimum_toList_iff {n : Nat} {v : Vector ℚ n} {bound : ℚ} (hbound : bound ≤ 0) :
    bound ≤ Scalar.minimum v.toList ↔ ∀ i, bound ≤ v.get i := by
  rw [Scalar.le_minimum_iff hbound, forall_mem_toList_iff]

variable {n : Nat} (p : Lcp ℚ n) (x : Point ℚ n)

theorem foldl_sub_eq {ι G : Type} [AddCommGroup G] (f : ι → G) (xs : List ι) (start : G) :
    xs.foldl (fun r i => r - f i) start = start - (xs.map f).sum := by
  induction xs generalizing start with
  | nil => simp
  | cons i xs ih =>
    rw [List.foldl_cons, ih, List.map_cons, List.sum_cons, sub_sub]

theorem Lcp.residual_eq (i : Fin n) :
    p.residual x i = x.w.get i - p.q.get i - ∑ j, p.m.entry i j * x.z.get j := by
  rw [Fin.sum_univ_def]
  exact foldl_sub_eq (fun j => p.m.entry i j * x.z.get j) (List.finRange n) _

theorem Point.inner_eq_sum : x.inner = ∑ i, x.w.get i * x.z.get i := by
  rw [Fin.sum_univ_def, List.sum_eq_foldl, List.foldl_map]
  rfl

theorem Lcp.largestResidual_le_iff (bound : ℚ) :
    p.largestResidual x ≤ bound ↔ 0 ≤ bound ∧ ∀ i, |p.residual x i| ≤ bound := by
  have hfold := foldl_max_le_iff (fun i => |p.residual x i|) (List.finRange n) 0 bound
  simp only [List.mem_finRange, true_implies, max_def_lt] at hfold
  unfold largestResidual
  simp only [Scalar.abs_rat]
  exact hfold

/-! ## The verdict -/

/-- **What the verdict says.**  A negative tolerance accepts nothing, since the absolute value of
the inner product is not below zero. -/
theorem Lcp.isWithin_iff (tolerance : ℚ) :
    (p.metrics x).isWithin tolerance = true ↔
      (∀ i, |x.w.get i - p.q.get i - ∑ j, p.m.entry i j * x.z.get j| ≤ tolerance) ∧
        |∑ i, x.w.get i * x.z.get i| ≤ tolerance ∧
        ∀ i, -tolerance ≤ x.w.get i ∧ -tolerance ≤ x.z.get i := by
  unfold Metrics.isWithin metrics
  simp only [Bool.and_eq_true, decide_eq_true_eq, Scalar.abs_rat, x.inner_eq_sum, and_assoc]
  by_cases htolerance : 0 ≤ tolerance
  · have hlowest : -tolerance ≤ 0 := neg_nonpos.2 htolerance
    rw [p.largestResidual_le_iff, and_iff_right htolerance, Scalar.le_minimum_toList_iff hlowest,
      Scalar.le_minimum_toList_iff hlowest, forall_and]
    simp only [p.residual_eq x]
  · refine iff_of_false ?_ ?_
    · rintro ⟨hresidual, -⟩
      exact htolerance ((p.largestResidual_le_iff x tolerance).1 hresidual).1
    · rintro ⟨-, hinner, -⟩
      exact htolerance ((abs_nonneg _).trans hinner)

/-- **A solution is within any tolerance.** -/
theorem Lcp.IsSolution.isWithin {p : Lcp ℚ n} {x : Point ℚ n} (h : p.IsSolution x) {tolerance : ℚ}
    (htolerance : 0 ≤ tolerance) : (p.metrics x).isWithin tolerance = true := by
  have hlowest : -tolerance ≤ 0 := neg_nonpos.2 htolerance
  refine (p.isWithin_iff x tolerance).2 ⟨fun i => ?_, ?_, fun i => ⟨?_, ?_⟩⟩
  · rw [h.equation i, add_sub_cancel_left, sub_self, abs_zero]
    exact htolerance
  · rw [Finset.sum_eq_zero fun i _ => h.complementary i, abs_zero]
    exact htolerance
  · exact hlowest.trans (h.w_nonneg i)
  · exact hlowest.trans (h.z_nonneg i)

/-- **An exact verdict.**  Where no entry is negative, the inner product is zero only if all its
summands are. -/
theorem Lcp.isWithin_zero_iff : (p.metrics x).isWithin 0 = true ↔ p.IsSolution x := by
  refine ⟨fun h => ?_, fun h => h.isWithin le_rfl⟩
  obtain ⟨hresidual, hinner, hentries⟩ := (p.isWithin_iff x 0).1 h
  simp only [neg_zero] at hentries
  refine isSolution_of_sum_eq_zero (fun i => ?_) (fun i => (hentries i).1)
    (fun i => (hentries i).2) (abs_nonpos_iff.1 hinner)
  rw [← sub_eq_zero, ← sub_sub]
  exact abs_nonpos_iff.1 (hresidual i)

/-- **The checker decides the problem.**  A pair is accepted exactly if every residual and the inner
product are within the tolerance and no entry is further below zero than it.  With tolerance zero it
is accepted exactly if `w = q + M z`, `w ≥ 0`, `z ≥ 0` and `w_i z_i = 0` for every single pair. -/
theorem Lcp.isWithin_metrics_iff :
    (∀ tolerance : ℚ, (p.metrics x).isWithin tolerance = true ↔
      (∀ i, |x.w.get i - p.q.get i - ∑ j, p.m.entry i j * x.z.get j| ≤ tolerance) ∧
        |∑ i, x.w.get i * x.z.get i| ≤ tolerance ∧
        ∀ i, -tolerance ≤ x.w.get i ∧ -tolerance ≤ x.z.get i) ∧
    ((p.metrics x).isWithin 0 = true ↔
      (∀ i, x.w.get i = p.q.get i + ∑ j, p.m.entry i j * x.z.get j) ∧
        (∀ i, 0 ≤ x.w.get i) ∧ (∀ i, 0 ≤ x.z.get i) ∧ ∀ i, x.w.get i * x.z.get i = 0) := by
  refine ⟨p.isWithin_iff x, (p.isWithin_zero_iff x).trans ⟨fun h => ?_, fun h => ?_⟩⟩
  · exact ⟨h.equation, h.w_nonneg, h.z_nonneg, h.complementary⟩
  · exact ⟨h.1, h.2.1, h.2.2.1, h.2.2.2⟩

/-! ## Verified solves -/

theorem Verified.ofOutcome_run (p : Lcp ℚ n) (settings : Settings) (d : Diagnostics)
    (workspace : Tableau ℚ n) (buffer : Point ℚ n) {tolerance : ℚ} (htolerance : 0 ≤ tolerance) :
    Verified.ofOutcome p tolerance (p.run settings d workspace buffer).1 =
      ⟨(p.run settings d workspace buffer).1, true⟩ := by
  unfold Verified.ofOutcome
  split
  · rename_i hsolved
    exact if_pos ((p.isSolution_run settings d workspace buffer hsolved).isWithin htolerance)
  · rfl

/-- **Nothing is rejected.**  A verified solve returns what the solve returns, accepted, and changes
nothing but the memory of the solver. -/
theorem Solver.exists_verifySized (s : Solver ℚ) (p : Lcp ℚ n) (hn : 0 < n)
    (hs : s.settings.isUsable = true) {tolerance : ℚ} (htolerance : 0 ≤ tolerance) :
    ∃ o next, s.verifySized p tolerance = (.ok ⟨o, true⟩, next) ∧ (s.solveSized p).1 = .ok o ∧
      next.settings = s.settings ∧ next.diagnostics = s.diagnostics := by
  have hanswer := s.solveSized_fst p hn hs
  refine ⟨_, (s.solveSized p).2, ?_, hanswer, s.solveInto_snd p _⟩
  show ((s.solveSized p).1.map (Verified.ofOutcome p tolerance), (s.solveSized p).2) = _
  rw [hanswer]
  exact congrArg (fun v => (Except.ok v, (s.solveSized p).2))
    (Verified.ofOutcome_run p _ _ _ _ htolerance)

end Complementarity
