import Mathlib
import Complementarity.Proofs.DoubleValues

/-!
# Exact operations on binary64 numbers

An operation on binary64 numbers computes the exact result and rounds it.  If the exact result is a
number of the format, `IsDouble`, there is nothing to round, and the operation returns it.  This is
proved here for the operations that pivoting uses:

* **rounding** — `HasValue.roundWithAccuracy` and `HasValue.round`: a value of the format is
  rounded to itself, however it is written;
* **operations** — `ratOfDouble?_neg`, `ratOfDouble?_mul`, `ratOfDouble?_sub` and
  `ratOfDouble?_div`.

A zero result may have either sign, and both zeros have the value zero.
-/

namespace Complementarity.Binary

open Float.Model (UnpackedFloat totalExponent)
open Float.Model.UnpackedFloat

/-- The number is the value of a finite binary64 number. -/
def IsDouble (a : ℚ) : Prop := ∃ x : Float, ratOfDouble? x = some a

/-! ## Rounding -/

/-- A nonzero value of the format has a mantissa and an exponent of the format. -/
theorem IsDouble.exists_canonical {s : Sign} {m : ℕ} {e : ℤ} (h : IsDouble (signedValue s m e))
    (hm : 0 < m) : ∃ m' e', 0 < m' ∧ IsCanonical m' e' ∧ (m : ℚ) * 2 ^ e = m' * 2 ^ e' := by
  obtain ⟨x, hx⟩ := h
  have hvalue := hasValue_of_ratOfDouble? hx
  generalize x.toModel.unpack = u at hvalue
  generalize ha : signedValue s m e = a at hvalue
  cases hvalue with
  | zero s' => exact absurd ha (signedValue_ne_zero s hm e)
  | finite s' m' e' hm' hcanonical =>
    exact ⟨m', e', hm', hcanonical, (signedValue_inj hm hm' ha).2⟩

/-- **Rounding from a long mantissa.**  A value of the format is rounded to itself if its exponent
is not above that of the format. -/
theorem HasValue.roundWithAccuracy {s : Sign} {m : ℕ} {e : ℤ} (hm : 0 < m)
    (hdouble : IsDouble (signedValue s m e))
    (he : e ≤ format64.targetExponent (totalExponent m e)) :
    HasValue (roundWithAccuracy format64 s m e .exact) (signedValue s m e) := by
  obtain ⟨m', e', hm', hcanonical, hvalue⟩ := hdouble.exists_canonical hm
  rw [totalExponent_eq hm hm' hvalue, hcanonical] at he
  have hmantissa := mantissa_eq_mul_two_pow he hvalue
  have hexponent : e = e' - (e' - e).toNat := by omega
  have hround := roundWithAccuracy_mul_two_pow s hm' hcanonical (e' - e).toNat
  rw [← hmantissa, ← hexponent] at hround
  have hsigned : signedValue s m e = signedValue s m' e' := by
    cases s
    · rw [signedValue_negative, signedValue_negative, hvalue]
    · exact hvalue
  rw [hround, hsigned]
  exact .finite s m' e' hm' hcanonical

/-- A mantissa at a smaller exponent. -/
theorem decreaseExponent_eq (m : ℕ) (e t : ℤ) :
    decreaseExponent m e t = (m * 2 ^ (e - t).toNat, e - (e - t).toNat) := by
  rw [decreaseExponent, Nat.shiftLeft_eq]

theorem signedValue_mul_two_pow (s : Sign) (m j : ℕ) (e : ℤ) :
    signedValue s (m * 2 ^ j) (e - j) = signedValue s m e := by
  have hmagnitude : ((m * 2 ^ j : ℕ) : ℚ) * 2 ^ (e - j) = m * 2 ^ e := by
    push_cast
    rw [zpow_sub₀ two_ne_zero, zpow_natCast]
    field_simp
  cases s
  · rw [signedValue_negative, signedValue_negative, hmagnitude]
  · exact hmagnitude

/-- The same value at a smaller exponent. -/
theorem signedValue_of_le (s : Sign) (m : ℕ) {e t : ℤ} (h : t ≤ e) :
    signedValue s (m * 2 ^ (e - t).toNat) t = signedValue s m e := by
  have hplace : e - (e - t).toNat = t := by omega
  conv_lhs => rw [← hplace]
  rw [hplace, ← signedValue_mul_two_pow s m (e - t).toNat e, hplace]

/-- **Rounding.**  A value of the format is rounded to itself, however it is written. -/
theorem HasValue.round {s : Sign} {m : ℕ} {e : ℤ} (hm : 0 < m)
    (hdouble : IsDouble (signedValue s m e)) :
    HasValue (round format64 s m e) (signedValue s m e) := by
  obtain ⟨j, hj⟩ : ∃ j, j = (e - format64.targetExponent (totalExponent m e)).toNat := ⟨_, rfl⟩
  have hvalue := signedValue_mul_two_pow s m j e
  unfold Float.Model.UnpackedFloat.round
  simp only [decreaseExponent_eq, ← hj]
  rw [← hvalue] at hdouble ⊢
  refine .roundWithAccuracy (Nat.mul_pos hm (Nat.two_pow_pos j)) hdouble ?_
  rw [totalExponent_mul_two_pow hm]
  omega

/-- Rounding a signed mantissa. -/
theorem HasValue.normalize {m e : ℤ} (zeroSign : Sign) (hdouble : IsDouble (m * 2 ^ e)) :
    HasValue (normalize format64 m e zeroSign) (m * 2 ^ e) := by
  unfold Float.Model.UnpackedFloat.normalize
  rcases lt_trichotomy m 0 with hm | rfl | hm
  · have hvalue : signedValue .negative (-m).toNat e = m * 2 ^ e := by
      show ((-((-m).toNat : ℤ) : ℤ) : ℚ) * 2 ^ e = _
      rw [Int.toNat_of_nonneg (by omega), neg_neg]
    rw [compare_lt_iff_lt.2 hm, ← hvalue]
    exact .round (by omega) (hvalue ▸ hdouble)
  · rw [Int.cast_zero, zero_mul]
    exact .zero zeroSign
  · have hvalue : signedValue .positive m.toNat e = m * 2 ^ e := by
      show (((m.toNat : ℤ) : ℤ) : ℚ) * 2 ^ e = _
      rw [Int.toNat_of_nonneg hm.le]
    rw [compare_gt_iff_gt.2 hm, ← hvalue]
    exact .round (by omega) (hvalue ▸ hdouble)

/-! ## Operations on unpacked numbers -/

theorem signedValue_mul (s s' : Sign) (m m' : ℕ) (e e' : ℤ) :
    signedValue s m e * signedValue s' m' e' = signedValue (s * s') (m * m') (e + e') := by
  have hmagnitude : (m : ℚ) * 2 ^ e * (m' * 2 ^ e') = (m * m' : ℕ) * 2 ^ (e + e') := by
    rw [zpow_add₀ two_ne_zero]
    push_cast
    ring
  cases s <;> cases s' <;>
    simp only [signedValue_negative, signedValue_positive, neg_mul, mul_neg, neg_neg, hmagnitude]
  · rfl
  · exact (signedValue_negative _ _).symm
  · exact (signedValue_negative _ _).symm
  · rfl

/-- The leading place of a product. -/
theorem log2_mul {m m' : ℕ} (hm : 0 < m) (hm' : 0 < m') :
    m.log2 + m'.log2 ≤ (m * m').log2 ∧ (m * m').log2 ≤ m.log2 + m'.log2 + 1 := by
  have hmul : 0 < m * m' := Nat.mul_pos hm hm'
  constructor
  · rw [Nat.le_log2 hmul.ne', Nat.pow_add]
    exact Nat.mul_le_mul (Nat.log2_self_le hm.ne') (Nat.log2_self_le hm'.ne')
  · rw [← Nat.lt_succ_iff, Nat.log2_lt hmul.ne']
    calc m * m' < 2 ^ (m.log2 + 1) * 2 ^ (m'.log2 + 1) :=
          Nat.mul_lt_mul'' Nat.lt_log2_self Nat.lt_log2_self
      _ = 2 ^ (m.log2 + m'.log2 + 1 + 1) := by
          rw [← Nat.pow_add]
          congr 1
          omega

/-- The core of a division whose quotient is a number of the format. -/
theorem exists_divCore_eq {m m' k : ℕ} {e e' f : ℤ} (hm : 0 < m) (hm' : 0 < m') (hk : 0 < k)
    (hcanonical : IsCanonical k f) (h : (m : ℚ) * 2 ^ e = (k * m' : ℕ) * 2 ^ (f + e')) :
    ∃ j : ℕ, divCore format64 m e m' e' = (k * 2 ^ j, f - j, .exact) := by
  obtain ⟨t, ht⟩ : ∃ t, t = min (e - e')
    (format64.targetExponent (totalExponent m e - totalExponent m' e')) := ⟨_, rfl⟩
  have hplace : t ≤ f := by
    have htotal := totalExponent_eq hm (Nat.mul_pos hk hm') h
    have hlog := log2_mul hk hm'
    have hbounds := isCanonical_iff.1 hcanonical
    unfold totalExponent at htotal ht
    have htarget : t ≤ max (((m.log2 : ℤ) + 1 + e - (m'.log2 + 1 + e')) - (53 : ℕ)) (-1074) :=
      ht.trans_le (min_le_right _ _)
    omega
  have hshift : m * 2 ^ (e - e' - t).toNat = k * 2 ^ (f - t).toNat * m' := by
    have hplace' : t + e' ≤ e ∧ t + e' ≤ f + e' := by omega
    have hmantissa : m * 2 ^ (e - (t + e')).toNat = k * m' * 2 ^ (f + e' - (t + e')).toNat :=
      mantissa_eq_mul_two_pow hplace'.2 ((signedValue_of_le .positive m hplace'.1).trans h)
    have hplaces : e - (t + e') = e - e' - t := by omega
    have hplaces' : f + e' - (t + e') = f - t := by omega
    rw [hplaces, hplaces'] at hmantissa
    rw [hmantissa, Nat.mul_right_comm]
  refine ⟨(f - t).toNat, ?_⟩
  unfold divCore
  simp only [← ht, Nat.shiftLeft_eq, hshift]
  rw [Nat.mul_div_cancel _ hm', Nat.mul_mod_left]
  refine congrArg (k * 2 ^ (f - t).toNat, ·) (Prod.ext ?_ rfl)
  show t = f - (f - t).toNat
  omega

namespace HasValue

variable {u v : UnpackedFloat} {a b : ℚ}

theorem neg (hu : HasValue u a) : HasValue u.neg (-a) := by
  cases hu with
  | zero s =>
    rw [neg_zero]
    exact .zero (-s)
  | finite s m e hm hcanonical =>
    have hvalue : -signedValue s m e = signedValue (-s) m e := by
      cases s
      · rw [signedValue_negative, neg_neg]
        rfl
      · exact (signedValue_negative m e).symm
    rw [hvalue]
    exact .finite (-s) m e hm hcanonical

theorem mul (hu : HasValue u a) (hv : HasValue v b) (hdouble : IsDouble (a * b)) :
    HasValue (UnpackedFloat.mul format64 u v) (a * b) := by
  cases hu with
  | zero s =>
    rw [zero_mul]
    cases hv with
    | zero s' => exact .zero _
    | finite s' m' e' hm' hcanonical' => exact .zero _
  | finite s m e hm hcanonical =>
    cases hv with
    | zero s' =>
      rw [mul_zero]
      exact .zero _
    | finite s' m' e' hm' hcanonical' =>
      rw [signedValue_mul] at hdouble ⊢
      refine .roundWithAccuracy (Nat.mul_pos hm hm') hdouble ?_
      have hbounds := isCanonical_iff.1 hcanonical
      have hbounds' := isCanonical_iff.1 hcanonical'
      have hlog := log2_mul hm hm'
      show e + e' ≤ max (((m * m').log2 : ℤ) + 1 + (e + e') - (53 : ℕ)) (-1074)
      omega

theorem sub (hu : HasValue u a) (hv : HasValue v b) (hdouble : IsDouble (a - b)) :
    HasValue (UnpackedFloat.sub format64 u v) (a - b) := by
  cases hu with
  | zero s =>
    cases hv with
    | zero s' =>
      rw [sub_zero]
      show HasValue (if s == -s' then _ else _) 0
      split
      · exact .zero _
      · exact .zero _
    | finite s' m' e' hm' hcanonical' =>
      rw [zero_sub]
      exact (HasValue.finite s' m' e' hm' hcanonical').neg
  | finite s m e hm hcanonical =>
    cases hv with
    | zero s' =>
      rw [sub_zero]
      exact .finite s m e hm hcanonical
    | finite s' m' e' hm' hcanonical' =>
      obtain ⟨t, ht⟩ : ∃ t, t = min e e' := ⟨_, rfl⟩
      have hvalue : signedValue s m e - signedValue s' m' e' =
          ((s.apply (m * 2 ^ (e - t).toNat : ℕ) - s'.apply (m' * 2 ^ (e' - t).toNat : ℕ) : ℤ) : ℚ) *
            2 ^ t := by
        rw [Int.cast_sub, sub_mul, ← signedValue_of_le s m (ht.trans_le (min_le_left e e')),
          ← signedValue_of_le s' m' (ht.trans_le (min_le_right e e'))]
        rfl
      unfold UnpackedFloat.sub
      simp only [decreaseExponent_eq, ← ht]
      rw [hvalue] at hdouble ⊢
      exact .normalize .positive hdouble

/-- The quotient of two numbers, the second one not zero. -/
theorem div (hu : HasValue u a) (hv : HasValue v b) (hb : b ≠ 0) (hdouble : IsDouble (a / b)) :
    HasValue (UnpackedFloat.div format64 u v) (a / b) := by
  cases hv with
  | zero s' => exact absurd rfl hb
  | finite s' m' e' hm' hcanonical' =>
    cases hu with
    | zero s =>
      rw [zero_div]
      exact .zero _
    | finite s m e hm hcanonical =>
      -- the quotient in the form of the format
      obtain ⟨z, hz⟩ := hdouble
      have hquotient := hasValue_of_ratOfDouble? hz
      have hne := div_ne_zero (signedValue_ne_zero s hm e) hb
      generalize hq : signedValue s m e / signedValue s' m' e' = q at hquotient hne ⊢
      generalize z.toModel.unpack = w at hquotient
      cases hquotient with
      | zero t => exact absurd rfl hne
      | finite t k f hk hcanonical'' =>
        have hproduct : signedValue s m e = signedValue (t * s') (k * m') (f + e') := by
          rw [← signedValue_mul, ← hq, div_mul_cancel₀ _ hb]
        obtain ⟨rfl, hmagnitude⟩ := signedValue_inj hm (Nat.mul_pos hk hm') hproduct
        obtain ⟨j, hcore⟩ := exists_divCore_eq hm hm' hk hcanonical'' hmagnitude
        have hsign : t * s' / s' = t := by cases t <;> cases s' <;> rfl
        unfold UnpackedFloat.div
        simp only [hcore, hsign]
        rw [roundWithAccuracy_mul_two_pow t hk hcanonical'' j]
        exact .finite t k f hk hcanonical''

end HasValue

/-! ## Operations -/

/-- A number with a value of the format is packed without loss. -/
theorem HasValue.ratOfDouble?_pack {u : UnpackedFloat} {a : ℚ} (hu : HasValue u a)
    (hdouble : IsDouble a) : ratOfDouble? (Float.ofModel (Float.Model.pack u)) = some a := by
  by_cases ha : a = 0
  · subst ha
    generalize hzero : (0 : ℚ) = b at hu
    cases hu with
    | zero s => cases s <;> decide +kernel
    | finite s m e hm hcanonical => exact absurd hzero.symm (signedValue_ne_zero s hm e)
  · obtain ⟨x, hx⟩ := hdouble
    rw [hu.eq_of_ne_zero (hasValue_of_ratOfDouble? hx) ha, pack_unpack_model]
    exact hx

section Operations

variable {x y : Float} {a b : ℚ}

theorem ratOfDouble?_neg (hx : ratOfDouble? x = some a) (hdouble : IsDouble (-a)) :
    ratOfDouble? (-x) = some (-a) :=
  (hasValue_of_ratOfDouble? hx).neg.ratOfDouble?_pack hdouble

theorem ratOfDouble?_mul (hx : ratOfDouble? x = some a) (hy : ratOfDouble? y = some b)
    (hdouble : IsDouble (a * b)) : ratOfDouble? (x * y) = some (a * b) :=
  ((hasValue_of_ratOfDouble? hx).mul (hasValue_of_ratOfDouble? hy) hdouble).ratOfDouble?_pack
    hdouble

theorem ratOfDouble?_sub (hx : ratOfDouble? x = some a) (hy : ratOfDouble? y = some b)
    (hdouble : IsDouble (a - b)) : ratOfDouble? (x - y) = some (a - b) :=
  ((hasValue_of_ratOfDouble? hx).sub (hasValue_of_ratOfDouble? hy) hdouble).ratOfDouble?_pack
    hdouble

theorem ratOfDouble?_div (hx : ratOfDouble? x = some a) (hy : ratOfDouble? y = some b) (hb : b ≠ 0)
    (hdouble : IsDouble (a / b)) : ratOfDouble? (x / y) = some (a / b) :=
  ((hasValue_of_ratOfDouble? hx).div (hasValue_of_ratOfDouble? hy) hb hdouble).ratOfDouble?_pack
    hdouble

end Operations

end Complementarity.Binary
