import Complementarity.Proofs.Completeness
import Complementarity.Proofs.Threshold
import Complementarity.Proofs.Traversal

/-!
# The length of a run without sign reversals

If the matrix of a problem reverses no signs, as every positive definite matrix does, then for each
value of the artificial variable there is at most one complementary solution: the signs of the
difference of two such solutions would be reversed.  So a run meets every vertex, and it always ends
with a solution, whence its length can be read off the vertices.

* **no reversal of perturbed signs** — `Dense.NoSignReversal.eq_zero_of_reversed`: what is true of
  the signs of numbers is true of those of perturbed constants, since a leading coefficient has the
  sign of the whole;
* **complementary solutions are determined** — `Lcp.isDetermined_of_noSignReversal`;
* **the length of the run** — `Lcp.threshold_eq_card_meetable`: the states of a run without a budget
  are one more than the vertices.
-/

namespace Complementarity

open Matrix Tableau Variable

variable {n : Nat}

/-! ## Signs of perturbed constants -/

/-- The coefficients of a linear combination. -/
theorem Perturbed.ofLex_sum_smul (a : Fin n → ℚ) (x : Fin n → Perturbed n) (k : Fin (n + 1)) :
    ofLex (∑ j, a j • x j) k = ∑ j, a j * ofLex (x j) k :=
  Finset.sum_apply k Finset.univ fun j => ofLex (a j • x j)

/-- **No reversal of perturbed signs.**  If the signs of all perturbed constants in a vector are
reversed, the vector is zero: otherwise the signs of its leading coefficients would be reversed. -/
theorem Dense.NoSignReversal.eq_zero_of_reversed {m : Dense ℚ n n} (hm : m.NoSignReversal)
    {x : Fin n → Perturbed n}
    (hreversed : ∀ i, 0 ≤ x i ∧ ∑ j, m.entry i j • x j ≤ 0 ∨
      x i ≤ 0 ∧ 0 ≤ ∑ j, m.entry i j • x j) : x = 0 := by
  by_contra hne
  obtain ⟨i, hi⟩ := Function.ne_iff.1 hne
  have hsome : ∃ k : Fin (n + 1), ∃ i, ofLex (x i) k ≠ 0 := by
    obtain ⟨k, hk⟩ := Function.ne_iff.1 hi
    exact ⟨k, i, hk⟩
  -- the first coefficient that is not zero in all entries
  obtain ⟨k, ⟨i', hi'⟩, hleast⟩ := exists_minimal_of_wellFoundedLT _ hsome
  have hlower : ∀ i, ∀ j < k, ofLex (x i) j = 0 := by
    intro i j hj
    by_contra hentry
    exact (hleast ⟨i, hentry⟩ hj.le).not_gt hj
  have hlowerSum : ∀ i, ∀ j < k, ofLex (∑ j, m.entry i j • x j) j = 0 := by
    intro i j hj
    rw [Perturbed.ofLex_sum_smul]
    exact Finset.sum_eq_zero fun j' _ => by rw [hlower j' j hj, mul_zero]
  obtain ⟨l, hl⟩ := hm (fun i => ofLex (x i) k) fun hzero => hi' (congrFun hzero i')
  rw [Dense.mulVec_eq_sum, ← Perturbed.ofLex_sum_smul] at hl
  refine hl.not_ge ?_
  have hneg : ∀ {y : Perturbed n}, y ≤ 0 → (∀ j < k, ofLex y j = 0) → ofLex y k ≤ 0 := by
    intro y hy hzero
    refine neg_nonneg.1 (Perturbed.ofLex_nonneg (neg_nonneg.2 hy) fun j hj => ?_)
    exact neg_eq_zero.2 (hzero j hj)
  rcases hreversed l with ⟨hx, hsum⟩ | ⟨hx, hsum⟩
  · exact mul_nonpos_of_nonneg_of_nonpos (Perturbed.ofLex_nonneg hx (hlower l))
      (hneg hsum (hlowerSum l))
  · exact mul_nonpos_of_nonpos_of_nonneg (hneg hx (hlower l))
      (Perturbed.ofLex_nonneg hsum (hlowerSum l))

/-! ## Complementary solutions -/

variable {p : Lcp ℚ n}

/-- The differences of two pairs of nonnegative values in each of which one is zero. -/
theorem reversed_of_complementary {V : Type} [AddCommGroup V] [LinearOrder V] [IsOrderedAddMonoid V]
    {w z w' z' : V} (hw : 0 ≤ w) (hz : 0 ≤ z) (hw' : 0 ≤ w') (hz' : 0 ≤ z') (h : w = 0 ∨ z = 0)
    (h' : w' = 0 ∨ z' = 0) : 0 ≤ z - z' ∧ w - w' ≤ 0 ∨ z - z' ≤ 0 ∧ 0 ≤ w - w' := by
  rcases h with rfl | rfl <;> rcases h' with rfl | rfl
  · simp only [sub_self, le_refl, and_true]
    exact le_total 0 (z - z')
  · exact Or.inl (by simp [hz, hw'])
  · exact Or.inr (by simp [hw, hz'])
  · simp only [sub_self, le_refl, true_and]
    exact le_total (w - w') 0

/-- **Complementary solutions are determined** by the value of the artificial variable. -/
theorem Lcp.isDetermined_of_noSignReversal (hm : p.m.NoSignReversal) : p.IsDetermined := by
  intro x y hx hy hartificial
  have hw : ∀ i : Fin n, x (.w i.castSucc) - y (.w i.castSucc) =
      ∑ j, p.m.entry i j • (x (.z j.castSucc) - y (.z j.castSucc)) := by
    intro i
    rw [hx.augmented.row i, hy.augmented.row i, hartificial]
    simp only [smul_sub, Finset.sum_sub_distrib]
    abel
  have hz : (fun j : Fin n => x (.z j.castSucc) - y (.z j.castSucc)) = 0 := by
    refine hm.eq_zero_of_reversed fun i => ?_
    rw [← hw i]
    exact reversed_of_complementary (hx.nonneg _) (hx.nonneg _) (hy.nonneg _) (hy.nonneg _)
      (hx.complementary (.w i.castSucc)) (hy.complementary (.w i.castSucc))
  funext u
  cases u using rowCases with
  | artificial => exact hartificial
  | formal => exact hx.formal_eq_zero.trans hy.formal_eq_zero.symm
  | w i =>
    refine sub_eq_zero.1 ((hw i).trans (Finset.sum_eq_zero fun j _ => ?_))
    rw [congrFun hz j, Pi.zero_apply, smul_zero]
  | z i => exact sub_eq_zero.1 (congrFun hz i)

/-! ## The length of the run -/

/-- A run without a pivot has no states. -/
theorem Lcp.threshold_of_start_eq_none (hstart : p.start? = none) : p.threshold = 0 := by
  have hnil : (p.states 0).length = 0 :=
    List.length_eq_zero_iff.2 (p.states_eq_nil_iff.2 hstart)
  rw [threshold_eq_of_length_le hnil.le, hnil, Nat.cast_zero]

/-- **The length of the run.**  If the matrix reverses no signs, a run without a budget has one
state more than there are vertices. -/
theorem Lcp.threshold_eq_card_meetable (hm : p.m.NoSignReversal) {s : State ℚ n}
    (hstart : p.start? = some s) : p.threshold = (p.meetable.card + 1 : ℕ) := by
  have hlength := p.length_trace_le hstart (iterationBound n)
  have hreleased : (s.final (iterationBound n)).isReleased = true := by
    have hstatus := p.status_run_ne_noSolution hm.isStrictlySemimonotone
      ({ maxIter := some (iterationBound n) } : Settings) {} (Tableau.zero ℚ n) (Point.zero ℚ n)
    rw [Lcp.status_run_eq hstart, Settings.budget, Option.getD_some, if_pos hlength] at hstatus
    by_contra hreleased
    exact hstatus (if_neg hreleased)
  obtain ⟨rest, hrest⟩ := s.trace_eq_cons (iterationBound n)
  have hlast : (s.trace (iterationBound n)).getD ((s.trace (iterationBound n)).length - 1) s =
      s.final (iterationBound n) := by
    rw [List.getD_eq_getElem?_getD, ← List.getLast?_eq_getElem?, State.getLast?_trace,
      Option.getD_some]
  have hcard := (p.path_trace hstart (iterationBound n)).card_meetable (hlast ▸ hreleased)
    (isDetermined_of_noSignReversal hm)
  have hcount : (s.trace (iterationBound n)).length = p.meetable.card + 1 := by
    have hpos : 0 < (s.trace (iterationBound n)).length := by
      rw [hrest]
      exact Nat.succ_pos _
    omega
  rw [← p.states_of_start_eq_some hstart] at hlength hcount
  rw [threshold_eq_of_length_le hlength, hcount]

end Complementarity
