import Mathlib
import Complementarity.Proofs.IntegerData
import Complementarity.Proofs.Representable

/-!
# Truncation to 64-bit integers

Whether an integer is a binary64 number can be seen from the number nearest to it: truncating this
number gives the integer back.  Truncation ends at the greatest 64-bit integer, and there the test
is wrong.

* `truncateToInt64_eq`: truncation gives every 64-bit integer back that is a binary64 number;
* `isDouble_truncateToInt64_or`: what it gives is a binary64 number, or the greatest 64-bit integer;
* `truncateToInt64_doubleOfInt_greatest`, `not_isDouble_greatestInt64`: this one is given back, and
  it is no binary64 number.
-/

namespace Complementarity.Binary

variable {x : Float} {v : ℤ}

/-- Truncation gives an integer back. -/
theorem truncateToInt64_eq (hx : ratOfDouble? x = some (v : ℚ))
    (hv : IsInt64 v) : truncateToInt64 x = v := by
  obtain ⟨negative, m, e, hdatum, hvalue⟩ := Datum.exists_finite_of_toRat? hx
  have hmagnitude : (v.natAbs : ℚ) = m * 2 ^ e := by
    rw [Nat.cast_natAbs, Int.cast_abs, hvalue, abs_signedValue]
  have hquotient : m * Nat.pow 2 e.toNat / Nat.pow 2 (-e).toNat = v.natAbs := by
    rw [← show v.natAbs * Nat.pow 2 (-e).toNat = m * Nat.pow 2 e.toNat from
      (mul_two_pow_eq_iff v.natAbs m e).2 hmagnitude]
    exact Nat.mul_div_cancel _ (Nat.two_pow_pos _)
  have hsign : (if negative then -(v.natAbs : ℤ) else v.natAbs) = v := by
    rw [signedValue_signOf, ← hmagnitude] at hvalue
    cases negative with
    | false => exact Int.cast_injective (hvalue.trans (Int.cast_natCast _).symm).symm
    | true => exact Int.cast_injective (hvalue.trans (by simp)).symm
  unfold truncateToInt64
  rw [show datumOfDouble x = .finite negative m e from hdatum]
  simp only [hquotient, hsign]
  rw [min_eq_left hv.2, max_eq_right hv.1]

/-- A binary64 number without the digits behind the point. -/
theorem isDouble_truncated {negative : Bool} {m : ℕ} {e : ℤ}
    (hx : datumOfDouble x = .finite negative m e) :
    IsDouble ((if negative then -((m * Nat.pow 2 e.toNat / Nat.pow 2 (-e).toNat : ℕ) : ℤ)
      else (m * Nat.pow 2 e.toNat / Nat.pow 2 (-e).toNat : ℕ) : ℤ) : ℚ) := by
  have hvalue : ratOfDouble? x = some (signedValue (signOf negative) m e) := by
    rw [ratOfDouble?, hx, toRat?_finite]
    rfl
  rcases Int.le_total 0 e with he | he
  · -- there are no such digits
    have hquotient : ((m * Nat.pow 2 e.toNat / Nat.pow 2 (-e).toNat : ℕ) : ℚ) = m * 2 ^ e := by
      rw [Int.toNat_of_nonpos (neg_nonpos.2 he)]
      show ((m * 2 ^ e.toNat / 1 : ℕ) : ℚ) = _
      rw [Nat.div_one, Nat.cast_mul, Nat.cast_pow, Nat.cast_two, ← zpow_natCast,
        Int.toNat_of_nonneg he]
    refine ⟨x, hvalue.trans (congrArg some ?_)⟩
    rw [signedValue_signOf, ← hquotient]
    split <;> push_cast <;> rfl
  · -- what is left of the mantissa is short
    obtain ⟨k, hencoded, -, -⟩ := Format.exists_isEncoded_of_decode x.toBits.toNat_lt hx
    have hm : m < 2 ^ 53 := hencoded.lt_two_mul
    have hquotient : m * Nat.pow 2 e.toNat / Nat.pow 2 (-e).toNat ≤ m := by
      rw [Int.toNat_of_nonpos he]
      exact (Nat.div_le_self _ _).trans_eq (Nat.mul_one m)
    generalize m * Nat.pow 2 e.toNat / Nat.pow 2 (-e).toNat = t at hquotient ⊢
    refine isDouble_intCast ?_
    split <;> omega

/-- **Truncation** gives a binary64 number, or the greatest 64-bit integer. -/
theorem isDouble_truncateToInt64_or (x : Float) :
    IsDouble (truncateToInt64 x) ∨ truncateToInt64 x = greatestInt64 := by
  have hleast : IsDouble leastInt64 := ⟨doubleOfInt leastInt64, by decide +kernel⟩
  unfold truncateToInt64
  cases hdatum : datumOfDouble x with
  | nan => exact Or.inl ⟨0, ratOfDouble?_zero⟩
  | infinite negative =>
    cases negative with
    | false => exact Or.inr rfl
    | true => exact Or.inl hleast
  | finite negative m e =>
    have htruncated := isDouble_truncated hdatum
    dsimp only
    generalize (if negative then -((m * Nat.pow 2 e.toNat / Nat.pow 2 (-e).toNat : ℕ) : ℤ)
      else (m * Nat.pow 2 e.toNat / Nat.pow 2 (-e).toNat : ℕ)) = t at htruncated ⊢
    rcases Int.le_total greatestInt64 t with hhigh | hhigh
    · rw [min_eq_right hhigh]
      exact Or.inr rfl
    · rw [min_eq_left hhigh]
      rcases Int.le_total t leastInt64 with hlow | hlow
      · rw [max_eq_left hlow]
        exact Or.inl hleast
      · rw [max_eq_right hlow]
        exact Or.inl htruncated

/-- The number nearest to the greatest 64-bit integer is the next integer. -/
theorem ratOfDouble?_doubleOfInt_greatest :
    ratOfDouble? (doubleOfInt greatestInt64) = some ((2 ^ 63 : ℤ) : ℚ) := by decide +kernel

theorem truncateToInt64_doubleOfInt_greatest :
    truncateToInt64 (doubleOfInt greatestInt64) = greatestInt64 := by decide +kernel

theorem not_isDouble_greatestInt64 : ¬ IsDouble greatestInt64 := by
  intro h
  have hvalue := ratOfDouble?_doubleOfInt h
  rw [ratOfDouble?_doubleOfInt_greatest] at hvalue
  exact absurd (Option.some.inj hvalue) (by decide +kernel)

end Complementarity.Binary
