import Mathlib
import Complementarity.Proofs.Doubles
import Complementarity.Proofs.WeakOrder

/-!
# The values of binary64 numbers

A finite binary64 number stands for a rational number.  `ratOfDouble?` reads it off the bit pattern,
and the operations work with sign, mantissa and exponent.  What is proved here:

* **both readings agree** — `ratOfDouble?_eq_value?`, by the three kinds of exponent fields;
* **the finite numbers are those with a value** — `isFinite_iff_ratOfDouble?`;
* **a nonzero value has one representation** — `HasValue.eq_of_ne_zero`: a sign, and the mantissa
  and exponent that the format has for it;
* **comparisons decide alike** — `lt_iff_of_ratOfDouble?` and `isZero_of_ratOfDouble?`.
-/

namespace Complementarity.Binary

open Float.Model (UnpackedFloat totalExponent)
open Float.Model.UnpackedFloat

/-! ## Sign, mantissa and exponent -/

/-- The value of a sign, a mantissa and an exponent. -/
def signedValue (s : Sign) (m : ℕ) (e : ℤ) : ℚ := (s.apply m : ℤ) * 2 ^ e

/-- The value of an unpacked number, if it is finite. -/
def value? : UnpackedFloat → Option ℚ
  | .zero _ => some 0
  | .finite s m e _ => some (signedValue s m e)
  | _ => none

theorem signedValue_positive (m : ℕ) (e : ℤ) : signedValue .positive m e = m * 2 ^ e := rfl

theorem signedValue_negative (m : ℕ) (e : ℤ) : signedValue .negative m e = -(m * 2 ^ e) := by
  show ((-(m : ℤ) : ℤ) : ℚ) * 2 ^ e = _
  push_cast
  ring

theorem mul_two_zpow_pos {m : ℕ} (hm : 0 < m) (e : ℤ) : (0 : ℚ) < m * 2 ^ e :=
  mul_pos (Nat.cast_pos.2 hm) (zpow_pos two_pos e)

@[simp] theorem signedValue_zero (s : Sign) (e : ℤ) : signedValue s 0 e = 0 := by
  cases s <;> simp [signedValue_negative, signedValue_positive]

theorem signedValue_ne_zero (s : Sign) {m : ℕ} (hm : 0 < m) (e : ℤ) : signedValue s m e ≠ 0 := by
  have hpos := mul_two_zpow_pos hm e
  cases s with
  | negative =>
    rw [signedValue_negative]
    exact neg_ne_zero.2 hpos.ne'
  | positive =>
    rw [signedValue_positive]
    exact hpos.ne'

/-- The sign and the magnitude of a nonzero value. -/
theorem signedValue_inj {s s' : Sign} {m m' : ℕ} {e e' : ℤ} (hm : 0 < m) (hm' : 0 < m')
    (h : signedValue s m e = signedValue s' m' e') :
    s = s' ∧ (m : ℚ) * 2 ^ e = m' * 2 ^ e' := by
  have hpos := mul_two_zpow_pos hm e
  have hpos' := mul_two_zpow_pos hm' e'
  cases s <;> cases s' <;> simp only [signedValue_negative, signedValue_positive] at h
  · exact ⟨rfl, neg_inj.1 h⟩
  · linarith
  · linarith
  · exact ⟨rfl, h⟩

/-! ## The bit pattern -/

/-- The fields of a bit pattern, as natural numbers. -/
theorem toNat_unpackMantissa (b : BitVec format64.numBits) :
    (unpackMantissa b).toNat = b.toNat % 2 ^ 52 := by
  simp [unpackMantissa]

theorem toNat_unpackSign (b : BitVec format64.numBits) :
    (unpackSign b).toNat = b.toNat / 2 ^ 63 % 2 := by
  simp [unpackSign, Nat.shiftRight_eq_div_pow]

theorem ofBitVec_unpackSign (b : BitVec format64.numBits) :
    Sign.ofBitVec (unpackSign b) =
      if decide (binary64.signBit ≤ b.toNat) then .negative else .positive := by
  have hsign := toNat_unpackSign b
  have hlt : b.toNat < 2 ^ 64 := b.isLt
  unfold Sign.ofBitVec
  by_cases hneg : binary64.signBit ≤ b.toNat
  · rw [decide_eq_true hneg, if_pos rfl, if_neg]
    intro hzero
    rw [hzero] at hsign
    change 2 ^ 63 ≤ b.toNat at hneg
    change 0 = _ at hsign
    omega
  · rw [decide_eq_false hneg, if_neg Bool.false_ne_true, if_pos]
    change ¬ 2 ^ 63 ≤ b.toNat at hneg
    refine BitVec.eq_of_toNat_eq (hsign.trans ?_)
    show b.toNat / 2 ^ 63 % 2 = 0
    omega

/-- What a decoded finite number stands for. -/
theorem toRat?_finite (negative : Bool) (m : ℕ) (e : ℤ) :
    (Datum.finite negative m e).toRat? =
      some (signedValue (if negative then .negative else .positive) m e) := by
  have hmagnitude : ((m * Nat.pow 2 e.toNat : ℕ) : ℚ) / (Nat.pow 2 (-e).toNat : ℕ) =
      m * 2 ^ e := by
    show ((m * 2 ^ e.toNat : ℕ) : ℚ) / ((2 ^ (-e).toNat : ℕ) : ℚ) = _
    push_cast
    rcases Int.le_total 0 e with he | he
    · lift e to ℕ using he
      simp
    · obtain ⟨k, rfl⟩ : ∃ k : ℕ, e = -k := ⟨(-e).toNat, by omega⟩
      simp [div_eq_mul_inv]
  unfold Datum.toRat?
  simp only [hmagnitude]
  cases negative with
  | true => exact congrArg some (signedValue_negative m e).symm
  | false => exact congrArg some (signedValue_positive m e).symm

section ExponentField

variable {b : BitVec format64.numBits}

/-- What is read, in terms of the fields of the bit pattern. -/
theorem decode_eq (b : BitVec format64.numBits) :
    binary64.decode b.toNat =
      if b.toNat % 2 ^ 63 = 2047 * 2 ^ 52 then .infinite (decide (binary64.signBit ≤ b.toNat))
      else if 2047 * 2 ^ 52 < b.toNat % 2 ^ 63 then .nan
      else if (unpackExponent b).toNat = 0 then
        .finite (decide (binary64.signBit ≤ b.toNat)) (unpackMantissa b).toNat (-1074)
      else
        .finite (decide (binary64.signBit ≤ b.toNat)) (2 ^ 52 + (unpackMantissa b).toNat)
          (-1074 + ((unpackExponent b).toNat - 1 : ℕ)) := by
  have hfield : b.toNat % binary64.signBit / binary64.binade = (unpackExponent b).toNat := by
    rw [toNat_unpackExponent]
    show b.toNat % 2 ^ 63 / 2 ^ 52 = _
    omega
  have hfraction : b.toNat % binary64.signBit % binary64.binade = (unpackMantissa b).toNat := by
    rw [toNat_unpackMantissa]
    show b.toNat % 2 ^ 63 % 2 ^ 52 = _
    omega
  unfold Format.decode
  simp only [hfield, hfraction]
  rfl

/-- With an exponent field of all ones there is no value. -/
theorem toRat?_decode_of_ones (hones : unpackExponent b = -1#_) :
    (binary64.decode b.toNat).toRat? = none := by
  have hmagnitude : 2047 * 2 ^ 52 ≤ b.toNat % 2 ^ 63 :=
    not_lt.1 fun h => (unpackExponent_ne_iff b).2 h hones
  rw [decode_eq]
  rcases hmagnitude.eq_or_lt with hinfinite | hnan
  · rw [if_pos hinfinite.symm]
    rfl
  · rw [if_neg hnan.ne', if_pos hnan]
    rfl

theorem value?_unpack_of_ones (hones : unpackExponent b = -1#_) :
    value? (unpack format64 b) = none := by
  unfold unpack
  rw [if_pos hones]
  split <;> rfl

theorem ne_ones_of_zeros (hzeros : unpackExponent b = 0#_) : unpackExponent b ≠ -1#_ := by
  rw [hzeros]
  decide

/-- With an exponent field of all zeros the mantissa field is the mantissa, at the least place. -/
theorem toRat?_decode_of_zeros (hzeros : unpackExponent b = 0#_) :
    (binary64.decode b.toNat).toRat? =
      some (signedValue (.ofBitVec (unpackSign b)) (unpackMantissa b).toNat (-1074)) := by
  have hmagnitude := (unpackExponent_ne_iff b).1 (ne_ones_of_zeros hzeros)
  have hfield : (unpackExponent b).toNat = 0 := by
    rw [hzeros]
    rfl
  rw [decode_eq, if_neg hmagnitude.ne, if_neg hmagnitude.not_gt, if_pos hfield, toRat?_finite,
    ← ofBitVec_unpackSign]

theorem value?_unpack_of_zeros (hzeros : unpackExponent b = 0#_) :
    value? (unpack format64 b) =
      some (signedValue (.ofBitVec (unpackSign b)) (unpackMantissa b).toNat (-1074)) := by
  unfold unpack
  rw [if_neg (ne_ones_of_zeros hzeros), if_pos hzeros]
  split
  · rename_i hmantissa
    rw [hmantissa]
    exact congrArg some (signedValue_zero _ _).symm
  · rw [hzeros]
    rfl

/-- With an exponent field that is neither, a leading one is put before the mantissa field. -/
theorem toRat?_decode_of_normal (hones : unpackExponent b ≠ -1#_)
    (hzeros : unpackExponent b ≠ 0#_) :
    (binary64.decode b.toNat).toRat? =
      some (signedValue (.ofBitVec (unpackSign b)) (2 ^ 52 + (unpackMantissa b).toNat)
        ((unpackExponent b).toNat - 1075)) := by
  have hmagnitude := (unpackExponent_ne_iff b).1 hones
  have hfield : (unpackExponent b).toNat ≠ 0 := fun h => hzeros (BitVec.eq_of_toNat_eq h)
  have hplace : (-1074 : ℤ) + ((unpackExponent b).toNat - 1 : ℕ) =
      (unpackExponent b).toNat - 1075 := by
    omega
  rw [decode_eq, if_neg hmagnitude.ne, if_neg hmagnitude.not_gt, if_neg hfield, toRat?_finite,
    ← ofBitVec_unpackSign, hplace]

theorem value?_unpack_of_normal (hones : unpackExponent b ≠ -1#_)
    (hzeros : unpackExponent b ≠ 0#_) :
    value? (unpack format64 b) =
      some (signedValue (.ofBitVec (unpackSign b)) (2 ^ 52 + (unpackMantissa b).toNat)
        ((unpackExponent b).toNat - 1075)) := by
  unfold unpack
  rw [if_neg hones, if_neg hzeros]
  exact congrArg (fun m => some (signedValue _ m _)) (toNat_append_one (unpackMantissa b))

/-- **Both readings agree**, whether the exponent field is all ones, all zeros or neither. -/
theorem toRat?_decode (b : BitVec format64.numBits) :
    (binary64.decode b.toNat).toRat? = value? (unpack format64 b) := by
  by_cases hones : unpackExponent b = -1#_
  · rw [toRat?_decode_of_ones hones, value?_unpack_of_ones hones]
  · by_cases hzeros : unpackExponent b = 0#_
    · rw [toRat?_decode_of_zeros hzeros, value?_unpack_of_zeros hzeros]
    · rw [toRat?_decode_of_normal hones hzeros, value?_unpack_of_normal hones hzeros]

end ExponentField

/-- **The value of a binary64 number** is that of its sign, mantissa and exponent. -/
theorem ratOfDouble?_eq_value? (x : Float) : ratOfDouble? x = value? x.toModel.unpack :=
  toRat?_decode x.toModel.toBits.toBitVec

/-! ## Finite numbers -/

/-- An unpacked number with this value, in the form that the format has for it. -/
inductive HasValue : UnpackedFloat → ℚ → Prop
  | zero (s : Sign) : HasValue (.zero s) 0
  | finite (s : Sign) (m : ℕ) (e : ℤ) (hm : 0 < m) (hcanonical : IsCanonical m e) :
    HasValue (.finite s m e hm) (signedValue s m e)

theorem hasValue_of_ratOfDouble? {x : Float} {a : ℚ} (h : ratOfDouble? x = some a) :
    HasValue x.toModel.unpack a := by
  rw [ratOfDouble?_eq_value?] at h
  cases hx : x.toModel.unpack with
  | infinity s => simp [hx, value?] at h
  | notANumber => simp [hx, value?] at h
  | zero s =>
    rw [hx] at h
    obtain rfl : 0 = a := Option.some.inj h
    exact .zero s
  | finite s m e hm =>
    rw [hx] at h
    obtain rfl : signedValue s m e = a := Option.some.inj h
    exact .finite s m e hm (isCanonical_of_unpack hx)

/-- **The finite numbers are those with a value.** -/
theorem isFinite_iff_ratOfDouble? {x : Float} :
    x.isFinite = true ↔ ∃ a, ratOfDouble? x = some a := by
  rw [ratOfDouble?_eq_value?]
  show x.toModel.unpack.isFinite = true ↔ _
  cases x.toModel.unpack <;> simp [UnpackedFloat.isFinite, value?]

theorem ratOfDouble?_zero : ratOfDouble? 0 = some 0 := by decide +kernel

theorem ratOfDouble?_one : ratOfDouble? 1 = some 1 := by decide +kernel

/-! ## One representation -/

/-- The mantissa at a smaller exponent. -/
theorem mantissa_eq_mul_two_pow {m m' : ℕ} {e e' : ℤ} (he : e ≤ e')
    (h : (m : ℚ) * 2 ^ e = m' * 2 ^ e') : m = m' * 2 ^ (e' - e).toNat := by
  have hzpow : (2 : ℚ) ^ e' = 2 ^ (e' - e).toNat * 2 ^ e := by
    rw [← zpow_natCast, ← zpow_add₀ two_ne_zero]
    congr 1
    omega
  rw [hzpow, ← mul_assoc] at h
  have hcast := mul_right_cancel₀ (zpow_ne_zero e two_ne_zero) h
  exact_mod_cast hcast

/-- Equal magnitudes have the same leading place. -/
theorem totalExponent_eq {m m' : ℕ} {e e' : ℤ} (hm : 0 < m) (hm' : 0 < m')
    (h : (m : ℚ) * 2 ^ e = m' * 2 ^ e') : totalExponent m e = totalExponent m' e' := by
  wlog he : e ≤ e' generalizing m m' e e'
  · exact (this hm' hm h.symm (Int.le_of_lt (not_le.1 he))).symm
  · have hplace : e = e' - (e' - e).toNat := by omega
    rw [mantissa_eq_mul_two_pow he h, ← totalExponent_mul_two_pow hm' e' (e' - e).toNat, ← hplace]

/-- **One representation.**  A magnitude has one mantissa and exponent of the format. -/
theorem IsCanonical.eq_and_eq {m m' : ℕ} {e e' : ℤ} (h : IsCanonical m e) (h' : IsCanonical m' e')
    (hm : 0 < m) (hm' : 0 < m') (hvalue : (m : ℚ) * 2 ^ e = m' * 2 ^ e') : m = m' ∧ e = e' := by
  have he : e = e' := by
    rw [← h, ← h', totalExponent_eq hm hm' hvalue]
  subst he
  have hmantissa := mantissa_eq_mul_two_pow le_rfl hvalue
  rw [sub_self, Int.toNat_zero, pow_zero, mul_one] at hmantissa
  exact ⟨hmantissa, rfl⟩

/-- A nonzero value has one representation. -/
theorem HasValue.eq_of_ne_zero {u v : UnpackedFloat} {a : ℚ} (hu : HasValue u a)
    (hv : HasValue v a) (ha : a ≠ 0) : u = v := by
  cases hu with
  | zero s => exact absurd rfl ha
  | finite s m e hm hcanonical =>
    generalize hvalue : signedValue s m e = b at hv
    cases hv with
    | zero s' => exact absurd hvalue ha
    | finite s' m' e' hm' hcanonical' =>
      obtain ⟨rfl, hmagnitude⟩ := signedValue_inj hm hm' hvalue
      obtain ⟨rfl, rfl⟩ := hcanonical.eq_and_eq hcanonical' hm hm' hmagnitude
      rfl

/-! ## Comparisons -/

/-- A greater exponent means a greater magnitude. -/
theorem IsCanonical.magnitude_lt {m m' : ℕ} {e e' : ℤ} (h : IsCanonical m e)
    (h' : IsCanonical m' e') (hm : 0 < m) (hm' : 0 < m') (he : e < e') :
    (m : ℚ) * 2 ^ e < m' * 2 ^ e' := by
  have hbounds := isCanonical_iff.1 h
  have hbounds' := isCanonical_iff.1 h'
  have hupper : m < 2 ^ 53 := (Nat.log2_lt hm.ne').1 (by omega)
  have hlower : 2 ^ 52 ≤ m' := (Nat.le_log2 hm'.ne').1 (by omega)
  calc (m : ℚ) * 2 ^ e < 2 ^ 53 * 2 ^ e :=
        mul_lt_mul_of_pos_right (by exact_mod_cast hupper) (zpow_pos two_pos e)
    _ = 2 ^ 52 * 2 ^ (e + 1) := by
        rw [zpow_add_one₀ two_ne_zero]
        ring
    _ ≤ 2 ^ 52 * 2 ^ e' :=
        mul_le_mul_of_nonneg_left (zpow_le_zpow_right₀ one_le_two he) (by norm_num)
    _ ≤ m' * 2 ^ e' :=
        mul_le_mul_of_nonneg_right (by exact_mod_cast hlower) (zpow_pos two_pos e').le

/-- **Magnitudes are ordered by exponent and mantissa.** -/
theorem IsCanonical.magnitude_lt_iff {m m' : ℕ} {e e' : ℤ} (h : IsCanonical m e)
    (h' : IsCanonical m' e') (hm : 0 < m) (hm' : 0 < m') :
    (m : ℚ) * 2 ^ e < m' * 2 ^ e' ↔ e < e' ∨ e = e' ∧ m < m' := by
  rcases lt_trichotomy e e' with he | rfl | he
  · exact iff_of_true (h.magnitude_lt h' hm hm' he) (Or.inl he)
  · rw [mul_lt_mul_iff_left₀ (zpow_pos two_pos e), Nat.cast_lt]
    simp
  · refine iff_of_false (h'.magnitude_lt h hm' hm he).not_gt ?_
    rintro (hlt | ⟨heq, -⟩)
    · exact hlt.not_gt he
    · exact he.ne' heq

/-- The order key decides as the value does. -/
theorem HasValue.orderKey_lt_iff {u v : UnpackedFloat} {a b : ℚ} (hu : HasValue u a)
    (hv : HasValue v b) : orderKey u < orderKey v ↔ a < b := by
  cases hu with
  | zero s =>
    cases hv with
    | zero s' => exact iff_of_false (lt_irrefl _) (lt_irrefl _)
    | finite s' m' e' hm' hcanonical' =>
      have hpos' := mul_two_zpow_pos hm' e'
      cases s' <;> dsimp only [orderKey] <;>
        simp [Prod.Lex.toLex_lt_toLex, signedValue_negative, signedValue_positive, hpos', hpos'.le]
  | finite s m e hm hcanonical =>
    have hpos := mul_two_zpow_pos hm e
    cases hv with
    | zero s' =>
      cases s <;> dsimp only [orderKey] <;>
        simp [Prod.Lex.toLex_lt_toLex, signedValue_negative, signedValue_positive, hpos, hpos.le]
    | finite s' m' e' hm' hcanonical' =>
      have hpos' := mul_two_zpow_pos hm' e'
      cases s <;> cases s' <;> dsimp only [orderKey] <;>
        simp only [Prod.Lex.toLex_lt_toLex, signedValue_negative, signedValue_positive,
          lt_irrefl, false_or, true_and]
      · refine Iff.trans ?_ neg_lt_neg_iff.symm
        rw [hcanonical'.magnitude_lt_iff hcanonical hm' hm]
        omega
      · exact iff_of_true (Or.inl (by decide)) (by linarith)
      · refine iff_of_false (fun h => ?_) (by linarith)
        omega
      · rw [hcanonical.magnitude_lt_iff hcanonical' hm hm']
        omega

section Comparisons

variable {x y : Float} {a b : ℚ}

/-- **Comparisons decide alike.** -/
theorem lt_iff_of_ratOfDouble? (hx : ratOfDouble? x = some a) (hy : ratOfDouble? y = some b) :
    x < y ↔ a < b := by
  have hlt : x < y ↔ x.toModel.unpack.lt y.toModel.unpack = true :=
    ⟨fun h => of_decide_eq_true h, fun h => decide_eq_true h⟩
  rw [hlt, lt_iff_orderKey (isFinite_iff_ratOfDouble?.2 ⟨a, hx⟩)
    (isFinite_iff_ratOfDouble?.2 ⟨b, hy⟩)]
  exact (hasValue_of_ratOfDouble? hx).orderKey_lt_iff (hasValue_of_ratOfDouble? hy)

/-- **The test for zero decides alike**, whatever the sign of a zero. -/
theorem isZero_of_ratOfDouble? (hx : ratOfDouble? x = some a) :
    Scalar.isZero x = decide (a = 0) := by
  have hbeq : Scalar.isZero x = x.toModel.unpack.beq (0 : Float).toModel.unpack := rfl
  have hzero : (0 : Float).toModel.unpack = .zero .positive := rfl
  have hvalue := hasValue_of_ratOfDouble? hx
  rw [hbeq, hzero]
  generalize x.toModel.unpack = u at hvalue ⊢
  cases hvalue with
  | zero s => rfl
  | finite s m e hm hcanonical =>
    rw [decide_eq_false (signedValue_ne_zero s hm e)]
    cases s <;> rfl

end Comparisons

end Complementarity.Binary
