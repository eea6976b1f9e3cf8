import Mathlib
import Complementarity.Binary.Convert

/-!
# The representation of binary64 numbers

The operations on binary64 numbers work with sign, mantissa and exponent.  What is proved here about
this form:

* **canonical exponents** — `isCanonical_of_unpack`: a number is unpacked to the exponent that the
  format has for it;
* **rounding** — `roundWithAccuracy_mul_two_pow`: a canonical mantissa and exponent are rounded to
  themselves, however they are written;
* **packing** — `pack_unpack_model` and `toBits_ofBits`: a number is recovered from its sign,
  mantissa and exponent, and the pattern of a finite number from the number.
-/

namespace Complementarity.Binary

open Float.Model (UnpackedFloat totalExponent)
open Float.Model.UnpackedFloat

/-- The 64-bit format, as the operations on binary64 numbers have it. -/
abbrev format64 : Float.Model.Format := Float.Model.Format.binary64

theorem toNat_append_one (m : BitVec 52) : (1#1 ++ m).toNat = 2 ^ 52 + m.toNat := by
  rw [BitVec.toNat_append, ← Nat.shiftLeft_add_eq_or_of_lt m.isLt]
  rfl

theorem log2_eq {m : ℕ} (hlow : 2 ^ 52 ≤ m) (hhigh : m < 2 ^ 53) : m.log2 = 52 :=
  (Nat.log2_eq_iff (by omega)).2 ⟨hlow, hhigh⟩

/-! ## Canonical exponents -/

/-- The exponent is the one that the format has for such a number. -/
def IsCanonical (m : ℕ) (e : ℤ) : Prop := format64.targetExponent (totalExponent m e) = e

theorem isCanonical_iff {m : ℕ} {e : ℤ} :
    IsCanonical m e ↔ max ((m.log2 : ℤ) + e - 52) (-1074) = e := by
  show max ((m.log2 : ℤ) + 1 + e - (53 : ℕ)) (-1074) = e ↔ _
  have : (m.log2 : ℤ) + 1 + e - (53 : ℕ) = m.log2 + e - 52 := by omega
  rw [this]

theorem isCanonical_of_unpack {b : BitVec format64.numBits} {s : Sign} {m : ℕ} {e : ℤ}
    {h : 0 < m} (hb : unpack format64 b = .finite s m e h) : IsCanonical m e := by
  have hfrac : (unpackMantissa b).toNat < 2 ^ 52 := (unpackMantissa b).isLt
  rw [isCanonical_iff]
  unfold unpack at hb
  simp only at hb
  split at hb
  · split at hb <;> cases hb
  · split at hb
    · rename_i hzero
      split at hb
      · cases hb
      · cases hb
        have hlog := (Nat.log2_lt h.ne').2 hfrac
        have hexponent : ((0#11).toNat : ℤ) - (format64.exponentBias + (52 : ℕ)) + 1 = -1074 :=
          rfl
        rw [hzero, hexponent]
        omega
    · rename_i hzero
      cases hb
      have hmantissa := toNat_append_one (unpackMantissa b)
      have hlog : (1#1 ++ unpackMantissa b).toNat.log2 = 52 := log2_eq (by omega) (by omega)
      have hfield : (unpackExponent b).toNat ≠ 0 := fun h0 => hzero (BitVec.eq_of_toNat_eq h0)
      have hbias : (format64.exponentBias : ℤ) = 1023 := rfl
      rw [hlog, hbias]
      omega

theorem shiftRight_mul_two_pow (m j : ℕ) :
    (⟨m * 2 ^ j, false, false⟩ : ExtendedMantissa) >>> j = ⟨m, false, false⟩ := by
  induction j generalizing m with
  | zero =>
    rw [Nat.pow_zero, Nat.mul_one]
    rfl
  | succ j ih =>
    rw [Nat.pow_succ', ← Nat.mul_assoc]
    show ((⟨m * 2 * 2 ^ j, false, false⟩ : ExtendedMantissa) >>> j).shiftRightOne = _
    rw [ih (m * 2)]
    simp [ExtendedMantissa.shiftRightOne]

theorem totalExponent_mul_two_pow {m : ℕ} (hm : 0 < m) (e : ℤ) (j : ℕ) :
    totalExponent (m * 2 ^ j) (e - j) = totalExponent m e := by
  have hlog : (m * 2 ^ j).log2 = m.log2 + j := by
    rw [Nat.log2_eq_iff (Nat.mul_pos hm (Nat.two_pow_pos j)).ne', Nat.pow_add, Nat.add_right_comm,
      Nat.pow_add]
    exact ⟨Nat.mul_le_mul_right _ (Nat.log2_self_le hm.ne'),
      Nat.mul_lt_mul_of_pos_right Nat.lt_log2_self (Nat.two_pow_pos j)⟩
  unfold totalExponent
  omega

theorem shiftToTargetExponent_mul_two_pow {m : ℕ} {e : ℤ} (hm : 0 < m) (h : IsCanonical m e)
    (j : ℕ) :
    shiftToTargetExponent format64 (m * 2 ^ j) (e - j) .exact = (⟨m, false, false⟩, e) := by
  have hshift : (e - (e - (j : ℤ))).toNat = j := by omega
  unfold shiftToTargetExponent shiftToExponent
  simp only
  rw [totalExponent_mul_two_pow hm, h, hshift]
  exact Prod.ext (shiftRight_mul_two_pow m j) (Int.sub_add_cancel e j)

/-- A number of the format is rounded to itself, however it is written. -/
theorem roundWithAccuracy_mul_two_pow (s : Sign) {m : ℕ} {e : ℤ} (hm : 0 < m)
    (h : IsCanonical m e) (j : ℕ) :
    roundWithAccuracy format64 s (m * 2 ^ j) (e - j) .exact = .finite s m e hm := by
  have hagain := shiftToTargetExponent_mul_two_pow hm h 0
  rw [Nat.pow_zero, Nat.mul_one, Nat.cast_zero, sub_zero] at hagain
  have hround : (⟨m, false, false⟩ : ExtendedMantissa).roundedMantissa = m := rfl
  unfold roundWithAccuracy
  simp only [shiftToTargetExponent_mul_two_pow hm h j, hround, hagain, hm.ne', dite_false]

theorem pack_unpack_model (x : Float.Model) : Float.Model.pack x.unpack = x := by
  have hbits := pack_unpack_of_valid x.valid
  obtain ⟨bits, hvalid⟩ := x
  unfold Float.Model.pack Float.Model.unpack
  simp only
  congr 1
  exact congrArg UInt64.ofBitVec hbits

/-! ## The pattern -/

/-- A pattern whose exponent field is not full is recovered from the number. -/
theorem pack_unpack_of_exponent_ne {spec : Float.Model.Format} {b : BitVec spec.numBits}
    (h : unpackExponent b ≠ -1#_) (hspec : 2 ≤ spec.exponentBits := by decide) :
    pack spec (unpack spec b) = b := by
  have hbits := pack_unpack b hspec
  rwa [isNaNBits, decide_eq_false fun hnan => h hnan.1] at hbits

theorem toNat_unpackExponent (b : BitVec format64.numBits) :
    (unpackExponent b).toNat = b.toNat / 2 ^ 52 % 2 ^ 11 := by
  simp [unpackExponent, Nat.shiftRight_eq_div_pow]

/-- The exponent field is full in the patterns of infinities and NaNs and in no others. -/
theorem unpackExponent_ne_iff (b : BitVec format64.numBits) :
    unpackExponent b ≠ -1#_ ↔ b.toNat % 2 ^ 63 < 2047 * 2 ^ 52 := by
  have hfield : unpackExponent b = -1#_ ↔ b.toNat / 2 ^ 52 % 2 ^ 11 = 2047 := by
    rw [← toNat_unpackExponent]
    exact ⟨fun h => congrArg BitVec.toNat h, fun h => BitVec.eq_of_toNat_eq h⟩
  rw [Ne, hfield]
  omega

/-- The pattern of a finite number is read back. -/
theorem toBits_ofBits {bits : UInt64} (h : bits.toNat % 2 ^ 63 < 2047 * 2 ^ 52) :
    (Float.ofBits bits).toBits = bits :=
  congrArg UInt64.ofBitVec
    (pack_unpack_of_exponent_ne ((unpackExponent_ne_iff bits.toBitVec).2 h))

end Complementarity.Binary
