import Mathlib.Algebra.Order.Group.Unbundled.Abs
import Mathlib.Tactic.Abel
import Complementarity.Proofs.Lexicographic

/-!
# Zigzags

A value is reflected at zero and then lowered, again and again, by the drops of a sequence that
falls so steeply that each drop outweighs all later ones.  Such values come up where the rows of a
problem depend on one another and only the perturbation tells them apart.

* **after a zero** — `Steep.zigzag_neg`, `Steep.zigzag_pos`: the next value is negative, and all
  later ones are positive;
* **before a zero** — `Steep.exists_zigzag`: the signs may be any;
* **the perturbation is steep** — `Perturbed.steep_term`.
-/

namespace Complementarity

/-! ## Reflecting and lowering -/

section Zigzag

variable {V : Type} [AddCommGroup V] [LinearOrder V]

/-- A value that is reflected at zero and lowered by the drop of a sequence, again and again. -/
def zigzag (e : ℕ → V) (y : V) : ℕ → V
  | 0 => y
  | i + 1 => |zigzag e y i| - (e i - e (i + 1))

theorem zigzag_succ_eq (e : ℕ → V) (y : V) (i : ℕ) :
    zigzag e y (i + 1) = zigzag (fun j => e (j + 1)) (|y| - (e 0 - e 1)) i := by
  induction i with
  | zero => rfl
  | succ i ih =>
    rw [zigzag, ih]
    rfl

/-- The first `n` terms are positive, and each is more than three times the next one. -/
structure Steep (n : ℕ) (e : ℕ → V) : Prop where
  pos : ∀ i < n, 0 < e i
  drop : ∀ i, i + 1 < n → 3 • e (i + 1) < e i

variable {n : ℕ} {e : ℕ → V} {y : V}

theorem Steep.tail (h : Steep (n + 1) e) : Steep n fun i => e (i + 1) :=
  ⟨fun i hi => h.pos (i + 1) (by omega), fun i hi => h.drop (i + 1) (by omega)⟩

variable [IsOrderedAddMonoid V]

/-- After a zero the next value is negative. -/
theorem Steep.zigzag_neg (h : Steep n e) {k : ℕ} (hk : zigzag e y k = 0) (hn : k + 1 < n) :
    zigzag e y (k + 1) < 0 := by
  have hpos := h.pos (k + 1) hn
  have hdrop := h.drop k hn
  rw [zigzag, hk, abs_zero]
  grind

/-- After that all values are positive. -/
theorem Steep.zigzag_pos (h : Steep n e) {k : ℕ} (hk : zigzag e y k = 0) {i : ℕ}
    (hi : k + 2 ≤ i) (hn : i < n) : 0 < zigzag e y i := by
  -- the value is known: all drops but the first two add up
  have hvalue : zigzag e y i = e k - 2 • e (k + 1) + e i := by
    induction i, hi using Nat.le_induction with
    | base =>
      have hneg := h.zigzag_neg hk (by omega)
      rw [zigzag, abs_of_neg hneg, zigzag, hk, abs_zero]
      abel
    | succ i hi ih =>
      have hprevious := ih (by omega)
      have hpos := h.pos i (by omega)
      have hsecond := h.pos (k + 1) (by omega)
      have hdrop := h.drop k (by omega)
      rw [zigzag, hprevious, abs_of_pos (by grind)]
      abel
  have hpos := h.pos i hn
  have hsecond := h.pos (k + 1) (by omega)
  have hdrop := h.drop k (by omega)
  rw [hvalue]
  grind

/-- **Any signs before a zero.**  For every choice of signs there is a first value from which the
values have these signs until one is zero. -/
theorem Steep.exists_zigzag {k : ℕ} (h : Steep n e) (hk : k < n) (U : Set ℕ) :
    ∃ y, |y| < 2 • e 0 ∧ zigzag e y k = 0 ∧
      ∀ i < k, (i ∈ U → zigzag e y i < 0) ∧ (i ∉ U → 0 < zigzag e y i) := by
  induction k generalizing n e U with
  | zero =>
    have hpos := h.pos 0 hk
    refine ⟨0, ?_, rfl, fun i hi => absurd hi i.not_lt_zero⟩
    rw [abs_zero]
    grind
  | succ k ih =>
    obtain ⟨n, rfl⟩ : ∃ m, n = m + 1 := ⟨n - 1, by omega⟩
    obtain ⟨y, hy, hzero, hsigns⟩ := ih h.tail (by omega) {i | i + 1 ∈ U}
    have hpos := h.pos 1 (by omega)
    have hdrop := h.drop 0 (by omega)
    have hbounds := abs_lt.1 hy
    -- the first value lies that far from zero, on either side
    have hfar : 0 < y + (e 0 - e 1) := by grind
    obtain ⟨first, hfirst, hsign⟩ : ∃ first, |first| = y + (e 0 - e 1) ∧
        (0 ∈ U → first < 0) ∧ (0 ∉ U → 0 < first) := by
      by_cases hU : 0 ∈ U
      · exact ⟨-(y + (e 0 - e 1)), by rw [abs_neg, abs_of_pos hfar],
          fun _ => neg_lt_zero.2 hfar, fun hnot => absurd hU hnot⟩
      · exact ⟨y + (e 0 - e 1), abs_of_pos hfar, fun hmem => absurd hmem hU, fun _ => hfar⟩
    have htail : ∀ i, zigzag e first (i + 1) = zigzag (fun j => e (j + 1)) y i := by
      intro i
      rw [zigzag_succ_eq, hfirst, add_sub_cancel_right]
    refine ⟨first, ?_, ?_, fun i hi => ?_⟩
    · rw [hfirst]
      grind
    · rw [htail, hzero]
    · cases i with
      | zero => exact hsign
      | succ i =>
        rw [htail]
        exact hsigns i (by omega)

theorem add_sub_pos_of_abs_lt {a b : V} (hy : |y| < 2 • a) (hab : 3 • a < b) :
    0 < y + b - a := by
  have hbounds := abs_lt.1 hy
  grind

end Zigzag

/-! ## The perturbation is steep -/

namespace Perturbed

variable {n : ℕ}

/-- No multiple of a power of the infinitesimal reaches a lower power. -/
theorem smul_power_lt {j k : Fin (n + 1)} (h : k < j) (a : ℚ) : a • power j < power k := by
  refine ⟨k, fun i (hi : i < k) => ?_, ?_⟩
  · show a * (Pi.single j 1 : Fin (n + 1) → ℚ) i = (Pi.single k 1 : Fin (n + 1) → ℚ) i
    rw [Pi.single_eq_of_ne (hi.trans h).ne, Pi.single_eq_of_ne hi.ne, mul_zero]
  · show a * (Pi.single j 1 : Fin (n + 1) → ℚ) k < (Pi.single k 1 : Fin (n + 1) → ℚ) k
    rw [Pi.single_eq_of_ne h.ne, Pi.single_eq_same, mul_zero]
    exact one_pos

/-- The perturbation of a row, and zero beyond the last row. -/
def term (n i : ℕ) : Perturbed n := if h : i < n then power ⟨i + 1, Nat.succ_lt_succ h⟩ else 0

theorem term_of_lt {i : ℕ} (h : i < n) : term n i = power (Fin.succ ⟨i, h⟩) := dif_pos h

theorem steep_term (n : ℕ) : Steep n (term n) := by
  refine ⟨fun i hi => ?_, fun i hi => ?_⟩
  · rw [term_of_lt hi]
    exact power_pos _
  · rw [term_of_lt hi, term_of_lt (Nat.lt_of_succ_lt hi), ← Nat.cast_smul_eq_nsmul ℚ]
    exact smul_power_lt (Fin.succ_lt_succ_iff.2 (Fin.mk_lt_mk.2 i.lt_succ_self)) _

theorem three_smul_term_lt (hn : 0 < n) : 3 • term n 0 < power 0 := by
  rw [term_of_lt hn, ← Nat.cast_smul_eq_nsmul ℚ]
  exact smul_power_lt (Fin.succ_pos _) _

end Perturbed

end Complementarity
