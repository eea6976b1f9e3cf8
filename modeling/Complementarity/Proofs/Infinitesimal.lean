import Mathlib.Algebra.Polynomial.BigOperators
import Mathlib.Analysis.Normed.Field.Lemmas
import Complementarity.Proofs.Lexicographic

/-!
# Small numbers in place of the infinitesimal

The lexicographic order of perturbed constants is the order of polynomials near zero.  "For all
small positive numbers" is the filter `𝓝[>] 0`, so finitely many such statements hold together.

* **the order near zero** — `toLex_lt_iff_eventually`: one list of coefficients is below another of
  its length exactly if the values of the polynomials are so at all small positive numbers.  Hence
  `comparisons_near_zero`: what `lexLt` and `lexNeg` decide of a coefficient list is how its
  polynomial compares, with another one or with zero, below some positive bound;
* **numbers in the constants** — `Perturbed.shift`: the value at a number takes the place of the
  constant coefficient, which is what the same perturbation made with a number does to a perturbed
  constant.  It is linear, and near zero it keeps strict inequalities;
* **polynomials** — `Perturbed.toPolynomial` has degree at most `n` and the values of the perturbed
  constant.
-/

namespace Complementarity

open Filter Topology

/-! ## The order near zero -/

/-- What holds at all small positive numbers holds at all that are below some bound. -/
theorem eventually_iff_exists_bound {P : ℚ → Prop} :
    (∀ᶠ e : ℚ in 𝓝[>] 0, P e) ↔ ∃ e₀ > 0, ∀ e, 0 < e → e < e₀ → P e := by
  rw [(nhdsGT_basis (0 : ℚ)).eventually_iff]
  simp only [Set.mem_Ioo, and_imp, gt_iff_lt]

/-- A lexicographically positive list of coefficients is positive at all small positive numbers. -/
theorem eventually_sum_pos {m : Nat} {f : Fin m → ℚ} (h : 0 < toLex f) :
    ∀ᶠ e : ℚ in 𝓝[>] 0, 0 < ∑ k, f k * e ^ k.val := by
  induction m with
  | zero => exact absurd h (Subsingleton.elim (toLex f) 0).not_gt
  | succ m ih =>
    let rest (e : ℚ) : ℚ := ∑ k : Fin m, f k.succ * e ^ k.val
    have hsplit : ∀ e : ℚ, ∑ k, f k * e ^ k.val = f 0 + e * rest e := by
      intro e
      rw [Fin.sum_univ_succ, Finset.mul_sum, Fin.val_zero, pow_zero, mul_one]
      refine congrArg (f 0 + ·) (Finset.sum_congr rfl fun k _ => ?_)
      rw [Fin.val_succ, pow_succ]
      ring
    simp only [hsplit]
    rcases (toLex_lt_succ_iff 0 f).1 h with hpos | ⟨hzero, htail⟩
    · -- near zero the constant coefficient outweighs the others
      have hcontinuous : Continuous fun e : ℚ => f 0 + e * rest e := by fun_prop
      refine hcontinuous.continuousWithinAt.tendsto.eventually_const_lt ?_
      rw [zero_mul, add_zero]
      exact hpos
    · filter_upwards [ih htail, self_mem_nhdsWithin] with e hrest (he : 0 < e)
      rw [← hzero, Pi.zero_apply, zero_add]
      exact mul_pos he hrest

/-- A list of coefficients that is below another has the smaller value at all small positive
numbers. -/
theorem eventually_sum_lt {m : Nat} {f g : Fin m → ℚ} (h : toLex f < toLex g) :
    ∀ᶠ e : ℚ in 𝓝[>] 0, ∑ k, f k * e ^ k.val < ∑ k, g k * e ^ k.val := by
  have hpos : 0 < toLex (g - f) := sub_pos.2 h
  filter_upwards [eventually_sum_pos hpos] with e he
  rw [← sub_pos, ← Finset.sum_sub_distrib]
  simpa only [Pi.sub_apply, sub_mul] using he

/-- **The order near zero.**  The lexicographic order of two lists of coefficients is the order of
their values at all small positive numbers. -/
theorem toLex_lt_iff_eventually {m : Nat} (f g : Fin m → ℚ) :
    toLex f < toLex g ↔
      ∀ᶠ e : ℚ in 𝓝[>] 0, ∑ k, f k * e ^ k.val < ∑ k, g k * e ^ k.val := by
  refine ⟨eventually_sum_lt, fun h => ?_⟩
  -- in the other two cases some small number has the values in another order
  rcases lt_trichotomy (toLex f) (toLex g) with hlt | heq | hgt
  · exact hlt
  · obtain ⟨e, he⟩ := h.exists
    rw [toLex_inj.1 heq] at he
    exact absurd he (lt_irrefl _)
  · obtain ⟨e, hlt, hgt⟩ := (h.and (eventually_sum_lt hgt)).exists
    exact absurd hgt hlt.asymm

/-! ## The comparisons -/

/-- Of two coefficient lists of one length the first precedes the second exactly if its polynomial
is below the other near zero. -/
theorem lexLt_iff_eventually {a b : List ℚ} (h : a.length = b.length) :
    lexLt a b = true ↔
      ∀ᶠ e : ℚ in 𝓝[>] 0, ∑ k, a.get k * e ^ k.val < ∑ k, b.get k * e ^ k.val := by
  have hvalue : ∀ e : ℚ, ∑ k, b.get k * e ^ k.val =
      ∑ k : Fin a.length, b.get (k.cast h) * e ^ k.val :=
    fun e => (Fin.sum_congr' (fun k => b.get k * e ^ k.val) h).symm
  have hlist : List.ofFn (fun k : Fin a.length => b.get (k.cast h)) = b := by
    rw [← List.ofFn_congr h.symm b.get, List.ofFn_get]
  simp only [hvalue]
  rw [← toLex_lt_iff_eventually, ← lexLt_ofFn_iff, List.ofFn_get, hlist]

/-- A coefficient list is negative exactly if its polynomial is so near zero. -/
theorem lexNeg_iff_eventually (a : List ℚ) :
    lexNeg a = true ↔ ∀ᶠ e : ℚ in 𝓝[>] 0, ∑ k, a.get k * e ^ k.val < 0 := by
  have hneg := lexNeg_ofFn_iff a.get
  rw [List.ofFn_get] at hneg
  rw [hneg]
  refine (toLex_lt_iff_eventually a.get 0).trans ?_
  simp only [Pi.zero_apply, zero_mul, Finset.sum_const_zero]

/-- **The comparisons decide the order near zero.**  Of two coefficient lists of one length the
first precedes the second exactly if its polynomial has the smaller values at all positive numbers
below some bound, and a coefficient list is negative exactly if its polynomial is so at all positive
numbers below some bound. -/
theorem comparisons_near_zero :
    (∀ a b : List ℚ, a.length = b.length →
      (lexLt a b = true ↔ ∃ e₀ > 0, ∀ t : ℚ, 0 < t → t < e₀ →
        ∑ k, a.get k * t ^ k.val < ∑ k, b.get k * t ^ k.val)) ∧
      ∀ a : List ℚ, (lexNeg a = true ↔ ∃ e₀ > 0, ∀ t : ℚ, 0 < t → t < e₀ →
        ∑ k, a.get k * t ^ k.val < 0) := by
  refine ⟨fun a b hlength => ?_, fun a => ?_⟩
  · rw [lexLt_iff_eventually hlength, eventually_iff_exists_bound]
  · rw [lexNeg_iff_eventually, eventually_iff_exists_bound]

/-- Beyond `1 / 8` the first polynomial is the greater one, and beyond `1 / 5` it is positive. -/
theorem comparisons_near_zero_crossing :
    [(0 : ℚ), -1, 5].length = [(0 : ℚ), 0, -3].length ∧
      (∃ e₀ > 0, ∀ t : ℚ, 0 < t → t < e₀ → -t + 5 * t ^ 2 < -3 * t ^ 2) ∧
      ∃ e₀ > 0, ∀ t : ℚ, 0 < t → t < e₀ → -t + 5 * t ^ 2 < 0 := by
  have hfirst : ∀ t : ℚ, ∑ k, [(0 : ℚ), -1, 5].get k * t ^ k.val = -t + 5 * t ^ 2 := by
    intro t
    simp [Fin.sum_univ_succ]
  have hsecond : ∀ t : ℚ, ∑ k, [(0 : ℚ), 0, -3].get k * t ^ k.val = -3 * t ^ 2 := by
    intro t
    simp [Fin.sum_univ_succ]
  have hlt := (comparisons_near_zero.1 [0, -1, 5] [0, 0, -3] rfl).1 (by decide)
  have hneg := (comparisons_near_zero.2 [0, -1, 5]).1 (by decide)
  simp only [hfirst, hsecond] at hlt hneg
  exact ⟨rfl, hlt, hneg⟩

namespace Perturbed

variable {n : Nat}

/-! ## Values -/

/-- The value of a polynomial at a number. -/
def evalAt (e : ℚ) : Perturbed n →ₗ[ℚ] ℚ where
  toFun x := ∑ k, ofLex x k * e ^ k.val
  map_add' x y := by
    rw [← Finset.sum_add_distrib]
    exact Finset.sum_congr rfl fun k _ => add_mul _ _ _
  map_smul' a x := by
    rw [RingHom.id_apply, smul_eq_mul, Finset.mul_sum]
    exact Finset.sum_congr rfl fun k _ => mul_assoc _ _ _

theorem evalAt_apply (e : ℚ) (x : Perturbed n) : evalAt e x = ∑ k, ofLex x k * e ^ k.val := rfl

/-- The value at zero is the constant coefficient. -/
theorem evalAt_zero (x : Perturbed n) : evalAt 0 x = ofLex x 0 := by
  rw [evalAt_apply, Finset.sum_eq_single 0]
  · rw [Fin.val_zero, pow_zero, mul_one]
  · intro k _ hk
    rw [zero_pow fun h => hk (Fin.ext h), mul_zero]
  · exact fun h => absurd (Finset.mem_univ _) h

/-- The value of a power of the infinitesimal. -/
theorem evalAt_power (e : ℚ) (k : Fin (n + 1)) : evalAt e (power k) = e ^ k.val := by
  rw [evalAt_apply, Finset.sum_eq_single k]
  · rw [power, ofLex_toLex, Pi.single_eq_same, one_mul]
  · intro j _ hj
    rw [power, ofLex_toLex, Pi.single_eq_of_ne hj, zero_mul]
  · exact fun h => absurd (Finset.mem_univ _) h

/-- Strict inequalities hold for the values at all small positive numbers. -/
theorem eventually_evalAt_lt {x y : Perturbed n} (h : x < y) :
    ∀ᶠ e : ℚ in 𝓝[>] 0, evalAt e x < evalAt e y := eventually_sum_lt h

/-! ## Numbers in the constants -/

/-- The polynomial with its value at a number in place of the constant coefficient. -/
def shift (e : ℚ) : Perturbed n →ₗ[ℚ] Perturbed n where
  toFun x := toLex (Fin.cons (evalAt e x) fun k => ofLex x k.succ)
  map_add' x y := by
    refine ofLex_inj.1 (funext fun k => ?_)
    cases k using Fin.cases with
    | zero => exact map_add (evalAt e) x y
    | succ k => rfl
  map_smul' a x := by
    refine ofLex_inj.1 (funext fun k => ?_)
    cases k using Fin.cases with
    | zero => exact map_smul (evalAt e) a x
    | succ k => rfl

theorem ofLex_shift_zero (e : ℚ) (x : Perturbed n) : ofLex (shift e x) 0 = evalAt e x := rfl

theorem ofLex_shift_succ (e : ℚ) (x : Perturbed n) (k : Fin n) :
    ofLex (shift e x) k.succ = ofLex x k.succ := rfl

/-- Near zero a shift keeps strict inequalities. -/
theorem eventually_shift_lt {x y : Perturbed n} (h : x < y) :
    ∀ᶠ e : ℚ in 𝓝[>] 0, shift e x < shift e y := by
  filter_upwards [eventually_evalAt_lt h] with e he
  exact lt_of_constant_lt he

/-! ## Polynomials -/

/-- A perturbed constant as a polynomial. -/
noncomputable def toPolynomial (x : Perturbed n) : Polynomial ℚ :=
  ∑ k, Polynomial.C (ofLex x k) * Polynomial.X ^ k.val

theorem eval_toPolynomial (e : ℚ) (x : Perturbed n) : x.toPolynomial.eval e = evalAt e x := by
  simp [toPolynomial, Polynomial.eval_finsetSum, evalAt_apply]

theorem natDegree_toPolynomial_le (x : Perturbed n) : x.toPolynomial.natDegree ≤ n := by
  refine Polynomial.natDegree_sum_le_of_forall_le _ _ fun k _ => ?_
  exact (Polynomial.natDegree_C_mul_X_pow_le _ _).trans (Nat.le_of_lt_succ k.isLt)

end Perturbed

end Complementarity
