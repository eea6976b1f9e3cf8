import Mathlib
import Complementarity.Binary.Format

/-!
# Encoding a number in a binary format

Every finite pattern of a format is a sign and a significand `m` at a place `k`, counted from the
least one, in one form (`Format.IsEncoded`): all digits of the significand are used, or the place is
the least one.  Reading takes a pattern apart into this form, and rounding puts it together again.

* **reading** — `Format.decode_pattern`, `Format.exists_isEncoded_of_decode`;
* **places** — `Format.quotientExponent_eq_log`: the leading place of a quotient is its binary
  logarithm;
* **rounding** — `Format.roundMagnitude_eq`: a number of the format is rounded to itself, whatever
  quotient it is given as; `Format.roundMagnitude_eq_infinity`: a number beyond the last place
  becomes infinite;
* **existence** — `Format.exists_isEncoded`: every short significand at a place of the format is a
  number of the format.
-/

namespace Complementarity.Binary

/-! ## Quotients and powers of two -/

theorem two_pow_toNat (e : ℤ) : (2 : ℚ) ^ e.toNat = 2 ^ e * 2 ^ (-e).toNat := by
  rcases Int.le_total 0 e with he | he
  · rw [Int.toNat_of_nonpos (neg_nonpos.2 he), pow_zero, mul_one, ← zpow_natCast,
      Int.toNat_of_nonneg he]
  · rw [Int.toNat_of_nonpos he, pow_zero, ← zpow_natCast, Int.toNat_of_nonneg (neg_nonneg.2 he),
      ← zpow_add₀ two_ne_zero, add_neg_cancel, zpow_zero]

theorem cast_mul_two_pow_toNat (b : ℕ) (e : ℤ) :
    ((b * 2 ^ e.toNat : ℕ) : ℚ) = b * 2 ^ e * 2 ^ (-e).toNat := by
  rw [Nat.cast_mul, Nat.cast_pow, Nat.cast_two, two_pow_toNat, mul_assoc]

/-- Moving both numbers to integers does not change how they compare. -/
theorem mul_two_pow_lt_iff (a b : ℕ) (e : ℤ) :
    a * 2 ^ (-e).toNat < b * 2 ^ e.toNat ↔ (a : ℚ) < b * 2 ^ e := by
  rw [← Nat.cast_lt (α := ℚ), cast_mul_two_pow_toNat b e, Nat.cast_mul, Nat.cast_pow, Nat.cast_two,
    mul_lt_mul_iff_left₀ (by positivity)]

theorem mul_two_pow_eq_iff (a b : ℕ) (e : ℤ) :
    a * 2 ^ (-e).toNat = b * 2 ^ e.toNat ↔ (a : ℚ) = b * 2 ^ e := by
  rw [← Nat.cast_inj (R := ℚ), cast_mul_two_pow_toNat b e, Nat.cast_mul, Nat.cast_pow, Nat.cast_two,
    mul_left_inj' (by positivity)]

theorem log_eq_of_le_of_lt {r : ℚ} {z : ℤ} (hlow : 2 ^ z ≤ r) (hhigh : r < 2 ^ (z + 1)) :
    Int.log 2 r = z := by
  have hr : 0 < r := lt_of_lt_of_le (zpow_pos two_pos z) hlow
  refine le_antisymm (Int.lt_add_one_iff.1 ?_) ?_
  · exact (Int.lt_zpow_iff_log_lt one_lt_two hr).1 (by exact_mod_cast hhigh)
  · exact (Int.zpow_le_iff_le_log one_lt_two hr).1 (by exact_mod_cast hlow)

theorem log_mul_two_zpow {m : ℕ} (hm : 0 < m) (e : ℤ) :
    Int.log 2 ((m : ℚ) * 2 ^ e) = m.log2 + e := by
  have hlow : (2 : ℚ) ^ m.log2 ≤ m := by exact_mod_cast Nat.log2_self_le hm.ne'
  have hhigh : (m : ℚ) < 2 ^ (m.log2 + 1) := by exact_mod_cast Nat.lt_log2_self
  have hpos : (0 : ℚ) < 2 ^ e := zpow_pos two_pos e
  refine log_eq_of_le_of_lt ?_ ?_
  · rw [zpow_add₀ two_ne_zero, zpow_natCast]
    exact mul_le_mul_of_nonneg_right hlow hpos.le
  · rw [add_right_comm, zpow_add₀ two_ne_zero]
    exact mul_lt_mul_of_pos_right (by exact_mod_cast hhigh) hpos

namespace Format

/-- **The leading place of a quotient.** -/
theorem quotientExponent_eq_log {num den : ℕ} (hnum : 0 < num) (hden : 0 < den) :
    quotientExponent num den = Int.log 2 ((num : ℚ) / den) := by
  have hnumLow : (2 : ℚ) ^ num.log2 ≤ num := by exact_mod_cast Nat.log2_self_le hnum.ne'
  have hnumHigh : (num : ℚ) < 2 ^ (num.log2 + 1) := by exact_mod_cast Nat.lt_log2_self
  have hdenLow : (2 : ℚ) ^ den.log2 ≤ den := by exact_mod_cast Nat.log2_self_le hden.ne'
  have hdenHigh : (den : ℚ) < 2 ^ (den.log2 + 1) := by exact_mod_cast Nat.lt_log2_self
  have hden' : (0 : ℚ) < den := Nat.cast_pos.2 hden
  obtain ⟨guess, hguess⟩ : ∃ guess : ℤ, guess = num.log2 - den.log2 := ⟨_, rfl⟩
  have htest : num * Nat.pow 2 (-guess).toNat < den * Nat.pow 2 guess.toNat ↔
      (num : ℚ) / den < 2 ^ guess :=
    (mul_two_pow_lt_iff num den guess).trans (div_lt_iff₀' hden').symm
  unfold quotientExponent
  simp only [← hguess]
  split
  · rename_i hbelow
    refine (log_eq_of_le_of_lt ?_ ?_).symm
    · rw [le_div_iff₀ hden']
      calc (2 : ℚ) ^ (guess - 1) * den ≤ 2 ^ (guess - 1) * 2 ^ (den.log2 + 1) :=
            mul_le_mul_of_nonneg_left hdenHigh.le (by positivity)
        _ = 2 ^ num.log2 := by
            rw [← zpow_natCast, ← zpow_natCast, ← zpow_add₀ two_ne_zero]
            congr 1
            push_cast
            omega
        _ ≤ num := hnumLow
    · rw [sub_add_cancel]
      exact htest.1 hbelow
  · rename_i hnot
    refine (log_eq_of_le_of_lt ?_ ?_).symm
    · exact not_lt.1 fun h => hnot (htest.2 h)
    · rw [div_lt_iff₀ hden']
      calc (num : ℚ) < 2 ^ (num.log2 + 1) := hnumHigh
        _ = 2 ^ (guess + 1) * 2 ^ den.log2 := by
            rw [← zpow_natCast, ← zpow_natCast, ← zpow_add₀ two_ne_zero]
            congr 1
            push_cast
            omega
        _ ≤ 2 ^ (guess + 1) * den := mul_le_mul_of_nonneg_left hdenLow (by positivity)

/-! ## Significands and places -/

variable (F : Format)

/-- A significand at a place of the format, in the form in which the format writes it: all digits
are used, or the place is the least one. -/
structure IsEncoded (m k : ℕ) : Prop where
  lt_two_mul : m < 2 * F.binade
  le_or_eq_zero : F.binade ≤ m ∨ k = 0
  lt_infinity : k * F.binade + m < F.infinity

/-- The pattern of a sign, a significand and a place. -/
def pattern (negative : Bool) (m k : ℕ) : ℕ :=
  (if negative then F.signBit else 0) + (k * F.binade + m)

theorem binade_pos : 0 < F.binade := Nat.two_pow_pos _

theorem infinity_lt_signBit : F.infinity < F.signBit :=
  Nat.mul_lt_mul_of_pos_right (Nat.sub_lt (Nat.two_pow_pos _) one_pos) F.binade_pos

theorem cast_binade : (F.binade : ℚ) = 2 ^ ((F.precision - 1 : ℕ) : ℤ) := by
  rw [zpow_natCast]
  exact Nat.cast_pow 2 (F.precision - 1)

variable {F} {m k : ℕ}

theorem IsEncoded.lt_signBit (h : F.IsEncoded m k) : k * F.binade + m < F.signBit :=
  h.lt_infinity.trans F.infinity_lt_signBit

/-- The magnitude of a pattern below that of infinity. -/
theorem pattern_mod_signBit (negative : Bool) (h : k * F.binade + m < F.signBit) :
    F.pattern negative m k % F.signBit = k * F.binade + m := by
  cases negative with
  | false => exact (congrArg (· % F.signBit) (Nat.zero_add _)).trans (Nat.mod_eq_of_lt h)
  | true => exact (Nat.add_mod_left _ _).trans (Nat.mod_eq_of_lt h)

theorem signBit_le_pattern_iff (negative : Bool) (h : k * F.binade + m < F.signBit) :
    F.signBit ≤ F.pattern negative m k ↔ negative = true := by
  cases negative with
  | false => simpa [pattern] using h
  | true => simp [pattern]

/-- **Reading.** -/
theorem decode_pattern (negative : Bool) (h : F.IsEncoded m k) :
    F.decode (F.pattern negative m k) = .finite negative m (F.minExponent + k) := by
  have hpos := F.binade_pos
  have hsign : decide (F.signBit ≤ F.pattern negative m k) = negative := by
    rw [Bool.decide_congr (signBit_le_pattern_iff negative h.lt_signBit), Bool.decide_eq_true]
  unfold decode
  simp only [pattern_mod_signBit negative h.lt_signBit, hsign]
  rw [if_neg h.lt_infinity.ne, if_neg h.lt_infinity.not_gt]
  rcases Nat.lt_or_ge m F.binade with hm | hm
  · obtain rfl := h.le_or_eq_zero.resolve_left hm.not_ge
    rw [Nat.zero_mul, Nat.zero_add, Nat.div_eq_of_lt hm, Nat.mod_eq_of_lt hm, if_pos rfl]
    simp
  · obtain ⟨fraction, rfl⟩ := Nat.exists_eq_add_of_le hm
    have hfraction : fraction < F.binade := by have := h.lt_two_mul; omega
    have hsplit : k * F.binade + (F.binade + fraction) = fraction + (k + 1) * F.binade := by ring
    rw [hsplit, Nat.add_mul_div_right _ _ hpos, Nat.add_mul_mod_self_right,
      Nat.div_eq_of_lt hfraction, Nat.mod_eq_of_lt hfraction, Nat.zero_add, if_neg k.succ_ne_zero]
    rfl

theorem pattern_lt (negative : Bool) (h : k * F.binade + m < F.signBit) :
    F.pattern negative m k < 2 * F.signBit := by
  unfold pattern
  split <;> omega

/-- A pattern is a sign and a magnitude. -/
theorem sign_add_mod {bits : ℕ} (h : bits < 2 * F.signBit) :
    (if decide (F.signBit ≤ bits) then F.signBit else 0) + bits % F.signBit = bits := by
  by_cases hsign : F.signBit ≤ bits
  · rw [decide_eq_true hsign, if_pos rfl, Nat.mod_eq_sub_mod hsign, Nat.mod_eq_of_lt (by omega)]
    omega
  · rw [decide_eq_false hsign, if_neg Bool.false_ne_true, Nat.mod_eq_of_lt (by omega), zero_add]

/-- **Every finite pattern is one of a sign, a significand and a place.** -/
theorem exists_isEncoded_of_decode {bits : ℕ} {negative : Bool} {e : ℤ}
    (hbits : bits < 2 * F.signBit) (h : F.decode bits = .finite negative m e) :
    ∃ k, F.IsEncoded m k ∧ e = F.minExponent + k ∧ bits = F.pattern negative m k := by
  have hpos := F.binade_pos
  have hsplit := sign_add_mod hbits
  have hmagnitude := Nat.div_add_mod (bits % F.signBit) F.binade
  have hfraction := Nat.mod_lt (bits % F.signBit) hpos
  unfold decode at h
  simp only at h
  split at h
  · cases h
  split at h
  · cases h
  have hlt : bits % F.signBit < F.infinity := by omega
  split at h
  · rename_i hfield
    obtain ⟨hnegative, rfl, rfl⟩ := Datum.finite.inj h
    rw [hfield, Nat.mul_zero, Nat.zero_add] at hmagnitude
    refine ⟨0, ⟨by omega, Or.inr rfl, by omega⟩, (add_zero _).symm, ?_⟩
    rw [pattern, ← hnegative, Nat.zero_mul, Nat.zero_add, hmagnitude, hsplit]
  · rename_i hfield
    obtain ⟨hnegative, rfl, rfl⟩ := Datum.finite.inj h
    obtain ⟨k, hk⟩ := Nat.exists_eq_succ_of_ne_zero hfield
    rw [hk] at hmagnitude ⊢
    have hsum : k * F.binade + (F.binade + bits % F.signBit % F.binade) = bits % F.signBit := by
      rw [← add_assoc, ← Nat.succ_mul, mul_comm, hmagnitude]
    refine ⟨k, ⟨by omega, Or.inl (Nat.le_add_right _ _), by omega⟩, rfl, ?_⟩
    rw [pattern, ← hnegative, hsum, hsplit]

/-! ## Rounding -/

/-- The leading place of a significand whose digits are all used. -/
theorem log2_eq_of_le {m : ℕ} (hlow : F.binade ≤ m) (hhigh : m < 2 * F.binade) :
    m.log2 = F.precision - 1 := by
  have hm : m ≠ 0 := (F.binade_pos.trans_le hlow).ne'
  rw [Nat.log2_eq_iff hm, Nat.pow_succ']
  exact ⟨hlow, hhigh⟩

/-- The place to which a number of the format is rounded. -/
theorem IsEncoded.max_place (h : F.IsEncoded m k) (hm : 0 < m) :
    max ((m.log2 : ℤ) + (F.minExponent + k) - (F.precision - 1 : ℕ)) F.minExponent =
      F.minExponent + k := by
  rcases h.le_or_eq_zero with hlow | rfl
  · rw [log2_eq_of_le hlow h.lt_two_mul]
    omega
  · have hlog : m.log2 ≤ F.precision - 1 := by
      rw [← Nat.lt_succ_iff, Nat.log2_lt hm.ne', Nat.pow_succ']
      exact h.lt_two_mul
    omega

/-- **A number of the format is rounded to itself.** -/
theorem roundMagnitude_eq {num den : ℕ} (h : F.IsEncoded m k) (hden : 0 < den)
    (hvalue : (num : ℚ) / den = m * 2 ^ (F.minExponent + k)) :
    F.roundMagnitude num den = k * F.binade + m := by
  have hden' : (den : ℚ) ≠ 0 := Nat.cast_ne_zero.2 hden.ne'
  unfold roundMagnitude
  rcases Nat.eq_zero_or_pos m with rfl | hm
  · have hk : k = 0 := h.le_or_eq_zero.resolve_left F.binade_pos.not_ge
    rw [Nat.cast_zero, zero_mul, div_eq_zero_iff, or_iff_left hden', Nat.cast_eq_zero] at hvalue
    rw [if_pos hvalue, hk, Nat.zero_mul]
  · have hnum : 0 < num := by
      refine Nat.pos_of_ne_zero ?_
      rintro rfl
      rw [Nat.cast_zero, zero_div] at hvalue
      exact (mul_pos (Nat.cast_pos.2 hm) (zpow_pos two_pos _)).ne hvalue
    have hplace : max (quotientExponent num den - (F.precision - 1 : ℕ)) F.minExponent =
        F.minExponent + k := by
      rw [quotientExponent_eq_log hnum hden, hvalue, log_mul_two_zpow hm, h.max_place hm]
    have hindex : (F.minExponent + k - F.minExponent).toNat = k := by
      rw [add_sub_cancel_left, Int.toNat_natCast]
    have hexact : num * Nat.pow 2 (-(F.minExponent + k)).toNat =
        m * (den * Nat.pow 2 (F.minExponent + k).toNat) := by
      rw [← Nat.mul_assoc]
      refine (mul_two_pow_eq_iff num (m * den) _).2 ?_
      rw [Nat.cast_mul, mul_right_comm, ← hvalue, div_mul_cancel₀ _ hden']
    have hunit : 0 < den * Nat.pow 2 (F.minExponent + k).toNat :=
      Nat.mul_pos hden (Nat.two_pow_pos _)
    rw [if_neg hnum.ne']
    simp only [hplace, hindex, hexact]
    rw [divNearestEven_mul m hunit, min_eq_left h.lt_infinity.le]

theorem div_le_divNearestEven (num den : ℕ) : num / den ≤ divNearestEven num den := by
  rcases divNearestEven_eq_or num den with ⟨heq, -⟩ | ⟨heq, -⟩
  · exact heq.ge
  · exact (Nat.le_succ _).trans heq.ge

/-- At the leading place of a quotient the rounded significand has all its digits. -/
theorem binade_le_divNearestEven {num den : ℕ} (hnum : 0 < num) (hden : 0 < den) :
    F.binade ≤ divNearestEven
      (num * Nat.pow 2 (-(Int.log 2 ((num : ℚ) / den) - (F.precision - 1 : ℕ))).toNat)
      (den * Nat.pow 2 (Int.log 2 ((num : ℚ) / den) - (F.precision - 1 : ℕ)).toNat) := by
  have hden' : (0 : ℚ) < den := Nat.cast_pos.2 hden
  have hleading : (2 : ℚ) ^ Int.log 2 ((num : ℚ) / den) ≤ num / den := by
    exact_mod_cast Int.zpow_log_le_self one_lt_two (div_pos (Nat.cast_pos.2 hnum) hden')
  rw [le_div_iff₀ hden'] at hleading
  refine le_trans ?_ (div_le_divNearestEven _ _)
  refine (Nat.le_div_iff_mul_le (Nat.mul_pos hden (Nat.two_pow_pos _))).2 ?_
  rw [← Nat.mul_assoc]
  refine not_lt.1 fun hlt => ((mul_two_pow_lt_iff num (F.binade * den) _).1 hlt).not_ge ?_
  refine le_trans (le_of_eq ?_) hleading
  rw [Nat.cast_mul, mul_right_comm, cast_binade, ← zpow_add₀ two_ne_zero, add_sub_cancel]

/-- **A number beyond the last place becomes infinite.** -/
theorem roundMagnitude_eq_infinity {num den : ℕ} (hbits : 2 ≤ 2 ^ F.exponentBits) (hden : 0 < den)
    (h : (F.binade : ℚ) * 2 ^ (F.minExponent + (2 ^ F.exponentBits - 2 : ℕ)) ≤ num / den) :
    F.roundMagnitude num den = F.infinity := by
  have hden' : (0 : ℚ) < den := Nat.cast_pos.2 hden
  have hbinade : (0 : ℚ) < F.binade := Nat.cast_pos.2 F.binade_pos
  have hnum : 0 < num := by
    refine Nat.pos_of_ne_zero ?_
    rintro rfl
    rw [Nat.cast_zero, zero_div] at h
    exact (mul_pos hbinade (zpow_pos two_pos _)).not_ge h
  have hquotient : (0 : ℚ) < num / den := div_pos (Nat.cast_pos.2 hnum) hden'
  have hsignificand := binade_le_divNearestEven (F := F) hnum hden
  -- the leading place of the quotient, and the place to which it is rounded
  have hlog : (F.precision - 1 : ℕ) + (F.minExponent + (2 ^ F.exponentBits - 2 : ℕ)) ≤
      Int.log 2 ((num : ℚ) / den) := by
    rw [cast_binade, ← zpow_add₀ two_ne_zero] at h
    exact (Int.zpow_le_iff_le_log one_lt_two hquotient).1 (by exact_mod_cast h)
  have hplace : max (quotientExponent num den - (F.precision - 1 : ℕ)) F.minExponent =
      Int.log 2 ((num : ℚ) / den) - (F.precision - 1 : ℕ) := by
    rw [quotientExponent_eq_log hnum hden]
    omega
  have hindex : 2 ^ F.exponentBits - 2 ≤
      (Int.log 2 ((num : ℚ) / den) - (F.precision - 1 : ℕ) - F.minExponent).toNat := by
    omega
  unfold roundMagnitude
  rw [if_neg hnum.ne']
  simp only [hplace]
  refine min_eq_right ?_
  calc F.infinity = (2 ^ F.exponentBits - 2) * F.binade + F.binade := by
        rw [← Nat.succ_mul]
        show (2 ^ F.exponentBits - 1) * _ = _
        congr 1
        omega
    _ ≤ _ := Nat.add_le_add (Nat.mul_le_mul_right _ hindex) hsignificand

/-- **Short significands.**  A significand of the format at a place of the format is a number of the
format. -/
theorem exists_isEncoded (hm : m < 2 * F.binade) (hk : k + 3 ≤ 2 ^ F.exponentBits) :
    ∃ m' k', F.IsEncoded m' k' ∧ m' * 2 ^ k' = m * 2 ^ k := by
  induction k generalizing m with
  | zero =>
    refine ⟨m, 0, ⟨hm, Or.inr rfl, ?_⟩, rfl⟩
    calc 0 * F.binade + m < 2 * F.binade := by omega
      _ ≤ F.infinity := Nat.mul_le_mul_right _ (Nat.le_sub_of_add_le hk)
  | succ k ih =>
    rcases Nat.lt_or_ge m F.binade with hshort | hlong
    · obtain ⟨m', k', hencoded, hvalue⟩ := ih (by omega : 2 * m < 2 * F.binade) (by omega)
      exact ⟨m', k', hencoded, by rw [hvalue, pow_succ]; ring⟩
    · refine ⟨m, k + 1, ⟨hm, Or.inl hlong, ?_⟩, rfl⟩
      calc (k + 1) * F.binade + m < (k + 3) * F.binade := by
            rw [Nat.add_mul k 3, Nat.add_mul k 1]
            omega
        _ ≤ F.infinity := Nat.mul_le_mul_right _ (by show _ ≤ 2 ^ F.exponentBits - 1; omega)

end Format

end Complementarity.Binary
