import Mathlib
import Complementarity.Proofs.Representable

/-!
# From binary64 to rational numbers and back

Every finite binary64 number is a rational number, a fraction whose denominator is a power of two.
On the way back numerator and denominator are rounded before they are divided.  The numerator is a
binary64 number, but a denominator from `2 ^ 1024` on is not: it becomes infinite, and the quotient
zero.

* **the fraction** — `IsDouble.exists_den_eq`, `IsDouble.num`: the denominator is a power of two,
  and the numerator is a binary64 number;
* **the way back** — `ratOfDouble?_doubleOfRat`, `ratOfDouble?_doubleOfRat_of_le_den`: the number
  itself, or zero;
* **both ways** — `beq_toDouble_ofDouble_iff`: a finite number comes back exactly if its denominator
  is below `2 ^ 1024`, as that of every number from `2 ^ (-971)` on is (`den_lt_of_le_abs`), and the
  least positive number does not come back (`toDouble_ofDouble_least`).
-/

namespace Complementarity.Binary

open Float.Model (UnpackedFloat)
open Float.Model.UnpackedFloat

variable {a : ℚ} {x : Float}

/-! ## The fraction -/

/-- A significand and a place make a fraction with a power of two as denominator. -/
theorem den_dvd_two_pow {s : Sign} {m j : ℕ} {e : ℤ} (h : -j ≤ e) :
    (signedValue s m e).den ∣ 2 ^ j := by
  obtain ⟨t, ht⟩ : ∃ t : ℕ, e = t - j := ⟨(e + j).toNat, by omega⟩
  have hfraction : signedValue s m e = ((s.apply m * 2 ^ t : ℤ) : ℚ) / ((2 ^ j : ℤ) : ℚ) := by
    rw [signedValue, ht, zpow_sub₀ two_ne_zero, zpow_natCast, zpow_natCast]
    push_cast
    ring
  have hdvd := Rat.den_dvd (s.apply m * 2 ^ t) (2 ^ j)
  rw [hfraction]
  exact_mod_cast hdvd

theorem IsDouble.exists_signedValue (h : IsDouble a) :
    ∃ (s : Sign) (m : ℕ) (e : ℤ), m < 2 ^ 53 ∧ -(1074 : ℕ) ≤ e ∧ a = signedValue s m e := by
  obtain ⟨negative, m, k, hencoded, rfl⟩ := isDouble_iff.1 h
  refine ⟨signOf negative, m, binary64.minExponent + k, hencoded.lt_two_mul, ?_, rfl⟩
  show -((1074 : ℕ) : ℤ) ≤ -1074 + k
  omega

/-- **The denominator** of a binary64 number is a power of two. -/
theorem IsDouble.exists_den_eq (h : IsDouble a) : ∃ j ≤ 1074, a.den = 2 ^ j := by
  obtain ⟨s, m, e, -, he, rfl⟩ := h.exists_signedValue
  exact (Nat.dvd_prime_pow Nat.prime_two).1 (den_dvd_two_pow he)

/-- A fraction in lowest terms with an even denominator has a short numerator. -/
theorem natAbs_num_le {s : Sign} {m j : ℕ} {e : ℤ} (hden : (signedValue s m e).den = 2 ^ (j + 1)) :
    (signedValue s m e).num.natAbs ≤ m := by
  obtain ⟨r, hr⟩ : ∃ r, r = signedValue s m e := ⟨_, rfl⟩
  rw [← hr] at hden ⊢
  have hmagnitude : (r.num.natAbs : ℚ) = m * 2 ^ (e + (j + 1 : ℕ)) := by
    have habs : |r| = m * 2 ^ e := by rw [hr, abs_signedValue]
    have hnum : (r.num : ℚ) = r * 2 ^ (j + 1) := by
      have hmul := Rat.mul_den_eq_num r
      rw [hden] at hmul
      exact_mod_cast hmul.symm
    rw [Nat.cast_natAbs, Int.cast_abs, hnum, abs_mul, habs, abs_of_pos (by positivity),
      zpow_add₀ two_ne_zero, zpow_natCast, mul_assoc]
  rcases Int.le_total (e + (j + 1 : ℕ)) 0 with hplace | hplace
  · -- the point is not moved beyond the last digit
    have hle : (r.num.natAbs : ℚ) ≤ m := by
      rw [hmagnitude]
      exact mul_le_of_le_one_right m.cast_nonneg (zpow_le_one_of_nonpos₀ one_le_two hplace)
    exact_mod_cast hle
  · -- otherwise numerator and denominator are both even, or the point is behind the last digit
    obtain ⟨t, ht⟩ := Int.eq_ofNat_of_zero_le hplace
    have hnat : r.num.natAbs = m * 2 ^ t := by
      rw [ht, zpow_natCast] at hmagnitude
      exact_mod_cast hmagnitude
    cases t with
    | zero => exact hnat.le.trans_eq (Nat.mul_one m)
    | succ t =>
      have hcoprime : Nat.Coprime (m * 2 ^ (t + 1)) (2 ^ (j + 1)) := by
        rw [← hnat, ← hden]
        exact r.reduced
      have htwo : 2 ∣ Nat.gcd (m * 2 ^ (t + 1)) (2 ^ (j + 1)) :=
        Nat.dvd_gcd (Dvd.dvd.mul_left (dvd_pow_self 2 t.succ_ne_zero) m)
          (dvd_pow_self 2 j.succ_ne_zero)
      rw [hcoprime] at htwo
      exact absurd htwo (by decide)

/-- **The numerator** of a binary64 number is a binary64 number. -/
theorem IsDouble.num (h : IsDouble a) : IsDouble a.num := by
  obtain ⟨j, -, hden⟩ := h.exists_den_eq
  cases j with
  | zero =>
    rw [Rat.coe_int_num_of_den_eq_one (hden.trans (pow_zero 2))]
    exact h
  | succ j =>
    obtain ⟨s, m, e, hm, -, rfl⟩ := h.exists_signedValue
    exact isDouble_intCast ((natAbs_num_le hden).trans_lt hm)

/-! ## The way back -/

theorem isDouble_two_pow {j : ℕ} (hj : j < 1024) : IsDouble ((2 ^ j : ℕ) : ℚ) := by
  have hplace : binary64.minExponent + (1022 + j : ℕ) = (j : ℤ) - 52 := by
    show (-1074 : ℤ) + (1022 + j : ℕ) = _
    omega
  have hnumber : binary64.IsNumber
      (signedValue (signOf false) (2 ^ 52) (binary64.minExponent + (1022 + j : ℕ))) :=
    Format.isNumber_signedValue false (by decide) (by show 1022 + j + 3 ≤ 2 ^ 11; omega)
  have hvalue : signedValue (signOf false) (2 ^ 52) (binary64.minExponent + (1022 + j : ℕ)) =
      ((2 ^ j : ℕ) : ℚ) := by
    rw [hplace]
    show ((2 ^ 52 : ℕ) : ℚ) * 2 ^ ((j : ℤ) - 52) = _
    rw [Nat.cast_pow, Nat.cast_pow, Nat.cast_two, ← zpow_natCast, ← zpow_natCast,
      ← zpow_add₀ two_ne_zero]
    congr 1
    push_cast
    ring
  rw [isDouble_iff, ← hvalue]
  exact hnumber

/-- **The way back.**  A binary64 number whose denominator is not too large comes back. -/
theorem ratOfDouble?_doubleOfRat (h : IsDouble a) (hden : a.den < 2 ^ 1024) :
    ratOfDouble? (doubleOfRat a) = some a := by
  obtain ⟨j, -, hj⟩ := h.exists_den_eq
  have hdenominator : IsDouble (a.den : ℚ) := by
    rw [hj] at hden ⊢
    exact isDouble_two_pow ((pow_lt_pow_iff_right₀ one_lt_two).1 hden)
  have hquotient : (a.num : ℚ) / (a.den : ℚ) = a := a.num_div_den
  have hdiv := ratOfDouble?_div (ratOfDouble?_doubleOfInt h.num)
    (ratOfDouble?_doubleOfNat hdenominator) (Nat.cast_ne_zero.2 a.den_ne_zero)
    (by rwa [hquotient])
  rwa [hquotient] at hdiv

/-- A natural number beyond the last place. -/
theorem doubleOfNat_eq_infinity {n : ℕ} (h : 2 ^ 1024 ≤ n) :
    doubleOfNat n = Float.ofBits (UInt64.ofNat binary64.infinity) := by
  have hle : (binary64.binade : ℚ) *
      2 ^ (binary64.minExponent + (2 ^ binary64.exponentBits - 2 : ℕ)) ≤ (n : ℚ) / (1 : ℕ) := by
    have hvalue : (binary64.binade : ℚ) *
        2 ^ (binary64.minExponent + (2 ^ binary64.exponentBits - 2 : ℕ)) = 2 ^ 1024 := by
      show ((2 ^ 52 : ℕ) : ℚ) * 2 ^ (972 : ℤ) = 2 ^ 1024
      rw [Nat.cast_pow, Nat.cast_two, ← zpow_natCast, ← zpow_add₀ two_ne_zero, ← zpow_natCast]
      rfl
    have hn : ((2 ^ 1024 : ℕ) : ℚ) ≤ n := Nat.cast_le.2 h
    rw [Nat.cast_pow, Nat.cast_two] at hn
    rw [hvalue, Nat.cast_one]
    simpa using hn
  rw [doubleOfNat, Format.roundMagnitude_eq_infinity (by decide) one_pos hle]

/-- A finite number divided by infinity is zero. -/
theorem HasValue.div_infinity {u : UnpackedFloat} (h : HasValue u a) (s : Sign) :
    HasValue (UnpackedFloat.div format64 u (.infinity s)) 0 := by
  cases h with
  | zero s' => exact .zero _
  | finite s' m e hm hcanonical => exact .zero _

/-- With a larger denominator, zero comes back. -/
theorem ratOfDouble?_doubleOfRat_of_le_den (h : IsDouble a) (hden : 2 ^ 1024 ≤ a.den) :
    ratOfDouble? (doubleOfRat a) = some 0 := by
  have hinfinity : (Float.ofBits (UInt64.ofNat binary64.infinity)).toModel.unpack =
      .infinity .positive := by rfl
  have hnum := hasValue_of_ratOfDouble? (ratOfDouble?_doubleOfInt h.num)
  rw [doubleOfRat, doubleOfNat_eq_infinity hden]
  show ratOfDouble? (Float.ofModel (Float.Model.pack (UnpackedFloat.div format64 _ _))) = _
  rw [hinfinity]
  exact (hnum.div_infinity .positive).ratOfDouble?_pack ⟨0, ratOfDouble?_zero⟩

/-! ## Both ways -/

/-- The denominator of a number that is not tiny. -/
theorem den_lt_of_le_abs (h : IsDouble a) (hle : 2 ^ (-971 : ℤ) ≤ |a|) : a.den < 2 ^ 1024 := by
  obtain ⟨s, m, e, hm, -, rfl⟩ := h.exists_signedValue
  have he : -1024 < e := by
    rw [abs_signedValue] at hle
    by_contra hnot
    refine hle.not_gt ?_
    calc (m : ℚ) * 2 ^ e < 2 ^ 53 * 2 ^ e :=
          mul_lt_mul_of_pos_right (by exact_mod_cast hm) (zpow_pos two_pos e)
      _ ≤ 2 ^ 53 * 2 ^ (-1024 : ℤ) :=
          mul_le_mul_of_nonneg_left (zpow_le_zpow_right₀ one_le_two (not_lt.1 hnot)) (by positivity)
      _ = 2 ^ (-971 : ℤ) := by
          rw [← zpow_natCast, ← zpow_add₀ two_ne_zero]
          rfl
  obtain ⟨j, hj⟩ : ∃ j, j = (-e).toNat := ⟨_, rfl⟩
  calc (signedValue s m e).den ≤ 2 ^ j :=
        Nat.le_of_dvd (Nat.two_pow_pos j) (den_dvd_two_pow (by omega))
    _ < 2 ^ 1024 := pow_lt_pow_right₀ one_lt_two (by omega)

/-- **Both ways.**  Every finite binary64 number has its value as a rational number, and it comes
back exactly if the denominator of this value is below `2 ^ 1024`.  Every number that is not tiny
comes back, and where the denominator is too large, zero does. -/
theorem beq_toDouble_ofDouble_iff (hx : x.isFinite = true) :
    ∃ r : ℚ, Scalar.ofDouble? x = some r ∧ value? x.toModel.unpack = some r ∧
      ((Scalar.toDouble r == x) = true ↔ r.den < 2 ^ 1024) ∧
      (2 ^ (-971 : ℤ) ≤ |r| → (Scalar.toDouble r == x) = true) ∧
      (2 ^ 1024 ≤ r.den → (Scalar.toDouble r == 0) = true) := by
  obtain ⟨r, hr⟩ := isFinite_iff_ratOfDouble?.1 hx
  have hdouble : IsDouble r := ⟨x, hr⟩
  have hiff : (Scalar.toDouble r == x) = true ↔ r.den < 2 ^ 1024 := by
    rcases Nat.lt_or_ge r.den (2 ^ 1024) with hden | hden
    · have hback : ratOfDouble? (Scalar.toDouble r) = some r :=
        ratOfDouble?_doubleOfRat hdouble hden
      exact iff_of_true ((beq_iff_of_ratOfDouble? hback hr).2 rfl) hden
    · have hback : ratOfDouble? (Scalar.toDouble r) = some 0 :=
        ratOfDouble?_doubleOfRat_of_le_den hdouble hden
      refine iff_of_false (fun hbeq => ?_) hden.not_gt
      obtain rfl := (beq_iff_of_ratOfDouble? hback hr).1 hbeq
      exact hden.not_gt (by decide +kernel)
  refine ⟨r, hr, (ratOfDouble?_eq_value? x).symm.trans hr, hiff, fun hle => ?_, fun hden => ?_⟩
  · exact hiff.2 (den_lt_of_le_abs hdouble hle)
  · have hback : ratOfDouble? (Scalar.toDouble r) = some 0 :=
      ratOfDouble?_doubleOfRat_of_le_den hdouble hden
    exact (beq_iff_of_ratOfDouble? hback ratOfDouble?_zero).2 rfl

/-- One tenth is rounded to a fraction, which comes back. -/
theorem beq_toDouble_ofDouble_tenth : (0.1 : Float).isFinite = true ∧
    ∃ r : ℚ, Scalar.ofDouble? (0.1 : Float) = some r ∧ r = 3602879701896397 / 2 ^ 55 ∧
      (Scalar.toDouble r == (0.1 : Float)) = true := by
  have hfinite : (0.1 : Float).isFinite = true := by decide +kernel
  have hvalue : Scalar.ofDouble? (0.1 : Float) = some (3602879701896397 / 2 ^ 55 : ℚ) := by
    decide +kernel
  obtain ⟨r, hr, -, hback, -, -⟩ := beq_toDouble_ofDouble_iff hfinite
  obtain rfl := Option.some.inj (hr.symm.trans hvalue)
  exact ⟨hfinite, _, hr, rfl, hback.2 (by decide +kernel)⟩

/-- The least positive number does not come back: its denominator is `2 ^ 1074`. -/
theorem toDouble_ofDouble_least : (Float.ofBits 1).isFinite = true ∧
    (Scalar.ofDouble? (Float.ofBits 1) : Option ℚ).map
      (fun r => (Scalar.toDouble r == Float.ofBits 1)) = some false := by
  decide +kernel

end Complementarity.Binary
