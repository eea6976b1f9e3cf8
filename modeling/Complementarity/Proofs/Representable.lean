import Mathlib
import Complementarity.Proofs.Encoding
import Complementarity.Proofs.ExactOperations

/-!
# Representable numbers

A number of a binary format is the value of a finite pattern.  Encoding and reading are exact on
these numbers, in every format and from one format to another:

* **numbers of a format** — `Format.IsNumber`, and `Format.IsNumber.roundQuotient`: a number of the
  format is rounded to its pattern;
* **types of numbers** — `Patterned`: what holds of every type whose numbers are given by the
  patterns of a format, that its values are the numbers of the format
  (`Patterned.exists_rat?_eq_iff`) and that a value keeps its value when it changes its format
  (`Patterned.rat?_encode`);
* **conversions** — `ratOfDouble?_doubleOfInt`, `ratOfSingle?_singleOfDouble`,
  `ratOfDouble?_doubleOfSingle`: a conversion to a type that has the number gives the number;
* **equality** — `beq_iff_of_ratOfDouble?`: the numbers are compared by their values.
-/

namespace Complementarity.Binary

open Float.Model (UnpackedFloat)
open Float.Model.UnpackedFloat

/-- The sign as a bit. -/
def signOf (negative : Bool) : Sign := if negative then .negative else .positive

theorem signedValue_signOf (negative : Bool) (m : ℕ) (e : ℤ) :
    signedValue (signOf negative) m e = if negative then -((m : ℚ) * 2 ^ e) else m * 2 ^ e := by
  cases negative with
  | false => exact signedValue_positive m e
  | true => exact signedValue_negative m e

theorem abs_signedValue (s : Sign) (m : ℕ) (e : ℤ) : |signedValue s m e| = m * 2 ^ e := by
  have hnonneg : (0 : ℚ) ≤ m * 2 ^ e := by positivity
  cases s with
  | positive => rw [signedValue_positive, abs_of_nonneg hnonneg]
  | negative => rw [signedValue_negative, abs_neg, abs_of_nonneg hnonneg]

theorem sign_mul_natAbs (v : ℤ) :
    (if decide (v < 0) then -(v.natAbs : ℚ) else v.natAbs) = v := by
  simp only [decide_eq_true_eq]
  rw [Nat.cast_natAbs, Int.cast_abs]
  by_cases hneg : v < 0
  · rw [if_pos hneg, abs_of_neg (Int.cast_lt_zero.2 hneg), neg_neg]
  · rw [if_neg hneg, abs_of_nonneg (Int.cast_nonneg (not_lt.1 hneg))]

theorem Datum.exists_finite_of_toRat? {d : Datum} {a : ℚ} (h : d.toRat? = some a) :
    ∃ negative m e, d = .finite negative m e ∧ a = signedValue (signOf negative) m e := by
  cases d with
  | nan => simp [Datum.toRat?] at h
  | infinite => simp [Datum.toRat?] at h
  | finite negative m e =>
    rw [toRat?_finite] at h
    exact ⟨negative, m, e, rfl, (Option.some.inj h).symm⟩

/-! ## Numbers of a format -/

namespace Format

variable {F : Format} {a : ℚ} {m k : ℕ}

/-- The number is the value of a finite pattern of the format. -/
def IsNumber (F : Format) (a : ℚ) : Prop :=
  ∃ negative m k, F.IsEncoded m k ∧ a = signedValue (signOf negative) m (F.minExponent + k)

theorem toRat?_decode_pattern (negative : Bool) (h : F.IsEncoded m k) :
    (F.decode (F.pattern negative m k)).toRat? =
      some (signedValue (signOf negative) m (F.minExponent + k)) := by
  rw [decode_pattern negative h, toRat?_finite]
  rfl

/-- **Every value that is read is a number of the format.** -/
theorem exists_isEncoded_of_toRat? {bits : ℕ} (hbits : bits < 2 * F.signBit)
    (h : (F.decode bits).toRat? = some a) :
    ∃ negative m k, F.IsEncoded m k ∧ bits = F.pattern negative m k ∧
      a = signedValue (signOf negative) m (F.minExponent + k) := by
  obtain ⟨negative, m, e, hdatum, rfl⟩ := Datum.exists_finite_of_toRat? h
  obtain ⟨k, hencoded, rfl, rfl⟩ := exists_isEncoded_of_decode hbits hdatum
  exact ⟨negative, m, k, hencoded, rfl, rfl⟩

theorem isNumber_of_toRat? {bits : ℕ} (hbits : bits < 2 * F.signBit)
    (h : (F.decode bits).toRat? = some a) : F.IsNumber a := by
  obtain ⟨negative, m, k, hencoded, -, rfl⟩ := exists_isEncoded_of_toRat? hbits h
  exact ⟨negative, m, k, hencoded, rfl⟩

/-- A short significand at a place of the format. -/
theorem isNumber_signedValue (negative : Bool) (hm : m < 2 * F.binade)
    (hk : k + 3 ≤ 2 ^ F.exponentBits) :
    F.IsNumber (signedValue (signOf negative) m (F.minExponent + k)) := by
  obtain ⟨m', k', hencoded, hvalue⟩ := exists_isEncoded hm hk
  have hmagnitude : (m' : ℚ) * 2 ^ (F.minExponent + k') = m * 2 ^ (F.minExponent + k) := by
    rw [zpow_add₀ two_ne_zero, zpow_add₀ two_ne_zero, zpow_natCast, zpow_natCast, mul_left_comm,
      mul_left_comm (m : ℚ)]
    exact congrArg _ (by exact_mod_cast hvalue)
  exact ⟨negative, m', k', hencoded, by rw [signedValue_signOf, signedValue_signOf, hmagnitude]⟩

/-- The magnitude of a number of the format. -/
theorem IsNumber.exists_abs_eq (h : F.IsNumber a) :
    ∃ m k, F.IsEncoded m k ∧ |a| = m * 2 ^ (F.minExponent + k) := by
  obtain ⟨negative, m, k, hencoded, rfl⟩ := h
  exact ⟨m, k, hencoded, abs_signedValue _ _ _⟩

/-- **Rounding.**  A quotient that is, up to its sign, a number of the format is rounded to the
pattern of this number. -/
theorem IsNumber.roundQuotient (h : F.IsNumber a) (negative : Bool) {num den : ℕ} (hden : 0 < den)
    (hvalue : (num : ℚ) / den = |a|) :
    ∃ m k, F.IsEncoded m k ∧ F.roundQuotient negative num den = F.pattern negative m k ∧
      signedValue (signOf negative) m (F.minExponent + k) = if negative then -|a| else |a| := by
  obtain ⟨m, k, hencoded, habs⟩ := h.exists_abs_eq
  refine ⟨m, k, hencoded, ?_, ?_⟩
  · rw [Format.roundQuotient, roundMagnitude_eq hencoded hden (hvalue.trans habs), pattern]
  · rw [signedValue_signOf, habs]

end Format

/-! ## Types of numbers -/

/-- A type of numbers that are given by the bit patterns of a format.  The pattern of a finite
number is read back. -/
class Patterned (τ : Type) where
  format : Format
  toPattern : τ → ℕ
  ofPattern : ℕ → τ
  toPattern_lt : ∀ x, toPattern x < 2 * format.signBit
  toPattern_ofPattern : ∀ {bits}, bits < 2 * format.signBit →
    bits % format.signBit < format.infinity → toPattern (ofPattern bits) = bits

namespace Patterned

variable {τ : Type} [Patterned τ] {a : ℚ} {m k : ℕ}

/-- The exact value of a finite number. -/
def rat? (x : τ) : Option ℚ := ((format τ).decode (toPattern x)).toRat?

theorem rat?_pattern (negative : Bool) (h : (format τ).IsEncoded m k) :
    rat? (ofPattern ((format τ).pattern negative m k) : τ) =
      some (signedValue (signOf negative) m ((format τ).minExponent + k)) := by
  have hfinite : (format τ).pattern negative m k % (format τ).signBit < (format τ).infinity := by
    rw [Format.pattern_mod_signBit negative h.lt_signBit]
    exact h.lt_infinity
  rw [rat?, toPattern_ofPattern (Format.pattern_lt negative h.lt_signBit) hfinite,
    Format.toRat?_decode_pattern negative h]

/-- **The values of a type** are the numbers of its format. -/
theorem exists_rat?_eq_iff : (∃ x : τ, rat? x = some a) ↔ (format τ).IsNumber a := by
  constructor
  · rintro ⟨x, hx⟩
    exact Format.isNumber_of_toRat? (toPattern_lt x) hx
  · rintro ⟨negative, m, k, h, rfl⟩
    exact ⟨_, rat?_pattern negative h⟩

/-- The numbers with a value are those whose pattern is below that of infinity. -/
theorem exists_rat?_iff {x : τ} :
    (∃ a, rat? x = some a) ↔ toPattern x % (format τ).signBit < (format τ).infinity := by
  constructor
  · rintro ⟨a, hx⟩
    obtain ⟨negative, m, k, hencoded, hbits, -⟩ :=
      Format.exists_isEncoded_of_toRat? (toPattern_lt x) hx
    rw [hbits, Format.pattern_mod_signBit negative hencoded.lt_signBit]
    exact hencoded.lt_infinity
  · intro hlt
    unfold rat? Format.decode
    simp only
    rw [if_neg hlt.ne, if_neg hlt.not_gt]
    split <;> exact ⟨_, toRat?_finite _ _ _⟩

/-- Rounding a quotient to a number of the type, if there is nothing to round. -/
theorem rat?_roundQuotient (h : (format τ).IsNumber a) (negative : Bool) {num den : ℕ}
    (hden : 0 < den) (hvalue : (num : ℚ) / den = |a|) :
    rat? (ofPattern ((format τ).roundQuotient negative num den) : τ) =
      some (if negative then -|a| else |a|) := by
  obtain ⟨m, k, hencoded, hpattern, hsigned⟩ := h.roundQuotient negative hden hvalue
  rw [hpattern, rat?_pattern negative hencoded, hsigned]

/-- The quotient that is rounded when a number changes its format. -/
theorem quotient_eq_abs_signedValue (s : Sign) (m : ℕ) (e : ℤ) :
    ((m * Nat.pow 2 e.toNat : ℕ) : ℚ) / (Nat.pow 2 (-e).toNat : ℕ) = |signedValue s m e| := by
  have hpos : (0 : ℚ) < (Nat.pow 2 (-e).toNat : ℕ) := Nat.cast_pos.2 (Nat.two_pow_pos _)
  rw [abs_signedValue, div_eq_iff hpos.ne']
  refine (cast_mul_two_pow_toNat m e).trans ?_
  exact congrArg _ (Nat.cast_pow 2 _).symm

/-- **A change of format.**  A value keeps its value in a format that has it. -/
theorem rat?_encode {d : Datum} (hd : d.toRat? = some a) (h : (format τ).IsNumber a) :
    rat? (ofPattern (d.encode (format τ)) : τ) = some a := by
  obtain ⟨negative, m, e, rfl, rfl⟩ := Datum.exists_finite_of_toRat? hd
  have hround := rat?_roundQuotient h negative (Nat.two_pow_pos _)
    (quotient_eq_abs_signedValue _ m e)
  rw [abs_signedValue, ← signedValue_signOf] at hround
  exact hround

end Patterned

/-! ## Binary64 and binary32 numbers -/

section Floating

variable {a : ℚ}

instance : Patterned Float where
  format := binary64
  toPattern x := x.toBits.toNat
  ofPattern bits := Float.ofBits (UInt64.ofNat bits)
  toPattern_lt x := x.toBits.toNat_lt
  toPattern_ofPattern {bits} hlt hfinite := by
    have hbits : (UInt64.ofNat bits).toNat = bits :=
      UInt64.toNat_ofNat'.trans (Nat.mod_eq_of_lt hlt)
    rw [toBits_ofBits (by rwa [hbits]), hbits]

theorem unpackExponent_single_ne_iff (b : BitVec Float.Model.Format.binary32.numBits) :
    unpackExponent b ≠ -1#_ ↔ b.toNat % binary32.signBit < binary32.infinity := by
  have hexponent : (unpackExponent b).toNat = b.toNat / 2 ^ 23 % 2 ^ 8 := by
    simp [unpackExponent, Nat.shiftRight_eq_div_pow]
  have hfield : unpackExponent b = -1#_ ↔ b.toNat / 2 ^ 23 % 2 ^ 8 = 255 := by
    rw [← hexponent]
    exact ⟨fun h => congrArg BitVec.toNat h, fun h => BitVec.eq_of_toNat_eq h⟩
  show _ ↔ b.toNat % 2 ^ 31 < 255 * 2 ^ 23
  rw [Ne, hfield]
  omega

instance : Patterned Float32 where
  format := binary32
  toPattern x := x.toBits.toNat
  ofPattern bits := Float32.ofBits (UInt32.ofNat bits)
  toPattern_lt x := x.toBits.toNat_lt
  toPattern_ofPattern {bits} hlt hfinite := by
    have hbits : (UInt32.ofNat bits).toNat = bits :=
      UInt32.toNat_ofNat'.trans (Nat.mod_eq_of_lt hlt)
    have hfield := (unpackExponent_single_ne_iff (UInt32.ofNat bits).toBitVec).2 (by
      rwa [UInt32.toNat_toBitVec, hbits])
    exact (congrArg UInt32.toNat (congrArg UInt32.ofBitVec
      (pack_unpack_of_exponent_ne hfield))).trans hbits

/-- The exact value of a finite binary32 number. -/
def ratOfSingle? (x : Float32) : Option ℚ := (datumOfSingle x).toRat?

/-- The number is the value of a finite binary32 number. -/
def IsSingle (a : ℚ) : Prop := ∃ x : Float32, ratOfSingle? x = some a

theorem isDouble_iff : IsDouble a ↔ binary64.IsNumber a :=
  Patterned.exists_rat?_eq_iff (τ := Float)

theorem isSingle_iff : IsSingle a ↔ binary32.IsNumber a :=
  Patterned.exists_rat?_eq_iff (τ := Float32)

theorem isFinite_of_ratOfDouble? {x : Float} (h : ratOfDouble? x = some a) : x.isFinite = true :=
  isFinite_iff_ratOfDouble?.2 ⟨a, h⟩

/-- A finite number has not all bits of its exponent field set. -/
theorem isFinite_unpack_iff {spec : Float.Model.Format} (b : BitVec spec.numBits) :
    (unpack spec b).isFinite = true ↔ unpackExponent b ≠ -1#_ := by
  unfold unpack
  simp only
  by_cases hfield : unpackExponent b = -1#_
  · rw [if_pos hfield]
    refine iff_of_false ?_ (not_not_intro hfield)
    split <;> exact Bool.false_ne_true
  · rw [if_neg hfield]
    refine iff_of_true ?_ hfield
    split
    · split <;> rfl
    · rfl

/-- The finite binary32 numbers are those with a value. -/
theorem isFinite_iff_ratOfSingle? {x : Float32} :
    x.isFinite = true ↔ ∃ a, ratOfSingle? x = some a :=
  ((isFinite_unpack_iff _).trans (unpackExponent_single_ne_iff x.toBits.toBitVec)).trans
    (Patterned.exists_rat?_iff (τ := Float32)).symm

/-- Integers of at most 53 bits are binary64 numbers. -/
theorem isDouble_intCast {v : ℤ} (h : v.natAbs < 2 ^ 53) : IsDouble v := by
  have hvalue : signedValue (signOf (decide (v < 0))) v.natAbs
      (binary64.minExponent + (1074 : ℕ)) = v := by
    have hone : (2 : ℚ) ^ (binary64.minExponent + (1074 : ℕ)) = 1 := zpow_zero 2
    rw [signedValue_signOf, hone, mul_one]
    exact sign_mul_natAbs v
  rw [isDouble_iff, ← hvalue]
  exact Format.isNumber_signedValue _ h (by decide)

/-- Every binary32 number is a binary64 number. -/
theorem IsSingle.isDouble (h : IsSingle a) : IsDouble a := by
  obtain ⟨negative, m, k, hencoded, rfl⟩ := isSingle_iff.1 h
  have hm : m < 2 * 2 ^ 23 := hencoded.lt_two_mul
  have hinfinity : k * 2 ^ 23 + m < 255 * 2 ^ 23 := hencoded.lt_infinity
  have hplace : binary32.minExponent + k = binary64.minExponent + (925 + k : ℕ) := by
    show (-149 : ℤ) + k = -1074 + (925 + k : ℕ)
    omega
  rw [isDouble_iff, hplace]
  refine Format.isNumber_signedValue negative ?_ ?_
  · show m < 2 * 2 ^ 52
    omega
  · show 925 + k + 3 ≤ 2 ^ 11
    omega

/-! ### Conversions -/

/-- **Integers.** -/
theorem ratOfDouble?_doubleOfInt {v : ℤ} (h : IsDouble v) :
    ratOfDouble? (doubleOfInt v) = some (v : ℚ) := by
  have hvalue : (v.natAbs : ℚ) / (1 : ℕ) = |(v : ℚ)| := by
    rw [Nat.cast_one, div_one, Nat.cast_natAbs, Int.cast_abs]
  have hround := Patterned.rat?_roundQuotient (τ := Float) (isDouble_iff.1 h) (decide (v < 0))
    one_pos hvalue
  rw [← Int.cast_abs, ← Nat.cast_natAbs, sign_mul_natAbs] at hround
  exact hround

theorem ratOfDouble?_doubleOfNat {n : ℕ} (h : IsDouble n) :
    ratOfDouble? (doubleOfNat n) = some (n : ℚ) := by
  have hvalue : (n : ℚ) / (1 : ℕ) = |(n : ℚ)| := by
    rw [Nat.cast_one, div_one, abs_of_nonneg n.cast_nonneg]
  have hround := Patterned.rat?_roundQuotient (τ := Float) (isDouble_iff.1 h) false one_pos hvalue
  rw [if_neg Bool.false_ne_true, abs_of_nonneg n.cast_nonneg] at hround
  rw [doubleOfNat, ← Nat.zero_add (binary64.roundMagnitude n 1)]
  exact hround

/-- **From binary64 to binary32.** -/
theorem ratOfSingle?_singleOfDouble {x : Float} (hx : ratOfDouble? x = some a) (h : IsSingle a) :
    ratOfSingle? (singleOfDouble x) = some a :=
  Patterned.rat?_encode (τ := Float32) hx (isSingle_iff.1 h)

/-- **From binary32 to binary64.** -/
theorem ratOfDouble?_doubleOfSingle {x : Float32} (hx : ratOfSingle? x = some a) :
    ratOfDouble? (doubleOfSingle x) = some a :=
  Patterned.rat?_encode (τ := Float) hx (isDouble_iff.1 (IsSingle.isDouble ⟨x, hx⟩))

end Floating

/-! ## Equality -/

section Equality

variable {x y : Float} {a b : ℚ}

/-- The two zeros. -/
theorem eq_zero_or_eq_neg_zero (h : ratOfDouble? x = some 0) : x = 0 ∨ x = -0 := by
  obtain ⟨negative, m, k, hencoded, hbits, hvalue⟩ :=
    Format.exists_isEncoded_of_toRat? (F := binary64) x.toBits.toNat_lt h
  obtain rfl : m = 0 := by
    refine Nat.eq_zero_of_not_pos fun hm => ?_
    exact signedValue_ne_zero _ hm _ hvalue.symm
  obtain rfl : k = 0 := hencoded.le_or_eq_zero.resolve_left binary64.binade_pos.not_ge
  have hx : x = Float.ofBits (UInt64.ofNat (binary64.pattern negative 0 0)) := by
    rw [← hbits, UInt64.ofNat_toNat, Float.ofBits_toBits]
  cases negative with
  | false => exact Or.inl (hx.trans (by decide +kernel))
  | true => exact Or.inr (hx.trans (by decide +kernel))

/-- A nonzero value belongs to one number. -/
theorem eq_of_ratOfDouble? (hx : ratOfDouble? x = some a) (hy : ratOfDouble? y = some a)
    (ha : a ≠ 0) : x = y := by
  have hunpack := (hasValue_of_ratOfDouble? hx).eq_of_ne_zero (hasValue_of_ratOfDouble? hy) ha
  have hmodel : x.toModel = y.toModel := by
    rw [← pack_unpack_model x.toModel, hunpack, pack_unpack_model]
  cases x
  cases y
  exact congrArg Float.ofModel hmodel

theorem ne_nan_of_ratOfDouble? (hx : ratOfDouble? x = some a) : x ≠ Float.nan := by
  rintro rfl
  exact absurd (isFinite_iff_ratOfDouble?.2 ⟨a, hx⟩) (by decide +kernel)

/-- **Equality decides by value.** -/
theorem beq_iff_of_ratOfDouble? (hx : ratOfDouble? x = some a) (hy : ratOfDouble? y = some b) :
    (x == y) = true ↔ a = b := by
  rw [Float.beq_iff_ne_nan_and_eq]
  constructor
  · have hneg : ratOfDouble? (-0) = some 0 := by decide +kernel
    rintro ⟨-, -, rfl | ⟨rfl, rfl⟩ | ⟨rfl, rfl⟩⟩
    · exact Option.some.inj (hx.symm.trans hy)
    · obtain rfl : 0 = a := Option.some.inj (ratOfDouble?_zero.symm.trans hx)
      exact Option.some.inj (hneg.symm.trans hy)
    · obtain rfl : 0 = a := Option.some.inj (hneg.symm.trans hx)
      exact Option.some.inj (ratOfDouble?_zero.symm.trans hy)
  · rintro rfl
    refine ⟨ne_nan_of_ratOfDouble? hx, ne_nan_of_ratOfDouble? hy, ?_⟩
    by_cases ha : a = 0
    · subst ha
      rcases eq_zero_or_eq_neg_zero hx with rfl | rfl <;>
        rcases eq_zero_or_eq_neg_zero hy with rfl | rfl <;> simp
    · exact Or.inl (eq_of_ratOfDouble? hx hy ha)

end Equality

end Complementarity.Binary
