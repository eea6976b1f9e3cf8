import Mathlib
import Complementarity.Metrics
import Complementarity.Proofs.Sizes
import Complementarity.Proofs.WeakOrder

/-!
# Verification in floating-point arithmetic

The products of finite numbers may overflow, and a difference of two infinities is a NaN.  A NaN
compares with nothing, so what it does to a verdict depends on the side of the comparison on which
it stands.

* **order** — `Scalar.Comparable`: all values but the NaNs are linearly preordered, infinities
  included, and this holds of all three scalar types;
* **extreme values** — `foldl_largest_le_iff`, `Scalar.le_minimum_iff_forall`: the running maximum
  of the residuals passes over a NaN, and a bound on it bounds all the others;
* **the verdict** — `Lcp.isWithin_iff_of_isFinite`: every row is within the tolerance or its
  residual is a NaN.  So a pair that is accepted has all its residuals within the tolerance exactly
  if none of them is a NaN (`Lcp.accepted_rows_iff`), and there is a pair that is accepted with a
  NaN (`isWithin_cancelling`).
-/

namespace Complementarity

open Float.Model (UnpackedFloat)

/-! ## Values that compare -/

/-- A NaN does not compare with itself. -/
def Scalar.IsNaN {α : Type} [Scalar α] (x : α) : Prop := ¬ x ≤ x

/-- The values that compare with themselves are linearly preordered, and no others compare. -/
class Scalar.Comparable (α : Type) [Scalar α] : Prop where
  le_trans : ∀ {x y z : α}, x ≤ y → y ≤ z → x ≤ z
  le_self_of_le : ∀ {x y : α}, x ≤ y → x ≤ x ∧ y ≤ y
  le_or_le : ∀ {x y : α}, x ≤ x → y ≤ y → x ≤ y ∨ y ≤ x
  lt_iff : ∀ {x y : α}, x < y ↔ x ≤ x ∧ y ≤ y ∧ ¬ y ≤ x
  le_self_of_isFinite : ∀ {x : α}, Scalar.isFinite x = true → x ≤ x
  neg_le_self : ∀ {x : α}, x ≤ x → -x ≤ -x

/-- Values that are ordered by a key in a linear order compare if they have one. -/
theorem Scalar.Comparable.of_key {α κ : Type} [Scalar α] [LinearOrder κ] (key : α → Option κ)
    (hle : ∀ {x y : α}, x ≤ y ↔ ∃ a ∈ key x, ∃ b ∈ key y, a ≤ b)
    (hlt : ∀ {x y : α}, x < y ↔ ∃ a ∈ key x, ∃ b ∈ key y, a < b)
    (hfinite : ∀ {x : α}, Scalar.isFinite x = true → (key x).isSome)
    (hneg : ∀ {x : α}, (key x).isSome → (key (-x)).isSome) : Scalar.Comparable α := by
  have hself : ∀ {x : α}, x ≤ x ↔ (key x).isSome := by
    intro x
    rw [hle, Option.isSome_iff_exists]
    exact ⟨fun ⟨a, ha, _⟩ => ⟨a, ha⟩, fun ⟨a, ha⟩ => ⟨a, ha, a, ha, le_rfl⟩⟩
  refine ⟨fun {x y z} hxy hyz => ?_, fun {x y} h => ?_, fun {x y} hx hy => ?_, fun {x y} => ?_,
    fun h => hself.2 (hfinite h), fun h => hself.2 (hneg (hself.1 h))⟩
  · obtain ⟨a, ha, b, hb, hab⟩ := hle.1 hxy
    obtain ⟨b', hb', c, hc, hbc⟩ := hle.1 hyz
    obtain rfl := Option.mem_unique hb hb'
    exact hle.2 ⟨a, ha, c, hc, hab.trans hbc⟩
  · obtain ⟨a, ha, b, hb, -⟩ := hle.1 h
    exact ⟨hself.2 (Option.isSome_of_mem ha), hself.2 (Option.isSome_of_mem hb)⟩
  · obtain ⟨a, ha⟩ := Option.isSome_iff_exists.1 (hself.1 hx)
    obtain ⟨b, hb⟩ := Option.isSome_iff_exists.1 (hself.1 hy)
    exact (le_total a b).imp (fun h => hle.2 ⟨a, ha, b, hb, h⟩) fun h => hle.2 ⟨b, hb, a, ha, h⟩
  · rw [hself, hself, hlt, hle, Option.isSome_iff_exists, Option.isSome_iff_exists]
    constructor
    · rintro ⟨a, ha, b, hb, hab⟩
      refine ⟨⟨a, ha⟩, ⟨b, hb⟩, ?_⟩
      rintro ⟨b', hb', a', ha', hba⟩
      obtain rfl := Option.mem_unique ha ha'
      obtain rfl := Option.mem_unique hb hb'
      exact hab.not_ge hba
    · rintro ⟨⟨a, ha⟩, ⟨b, hb⟩, hnot⟩
      exact ⟨a, ha, b, hb, not_le.1 fun hba => hnot ⟨b, hb, a, ha, hba⟩⟩

instance : Scalar.Comparable ℚ :=
  .of_key some (fun {x y} => by simp) (fun {x y} => by simp) (fun _ => rfl) fun _ => rfl

/-! ## Binary numbers -/

namespace Binary

open Float.Model.UnpackedFloat

/-- What binary numbers are ordered by.  The infinities lie beyond all finite numbers, and a NaN has
no place in the order. -/
def comparisonKey : UnpackedFloat → Option (ℤ ×ₗ ℤ ×ₗ ℤ)
  | .notANumber => none
  | .infinity .positive => some (toLex (2, toLex (0, 0)))
  | .infinity .negative => some (toLex (-2, toLex (0, 0)))
  | u => some (orderKey u)

theorem isSome_comparisonKey (u : UnpackedFloat) : (comparisonKey u).isSome = !u.isNaN := by
  rcases u with s | _ | s | ⟨s, m, e, _⟩
  · cases s <;> rfl
  all_goals rfl

/-- What exchanging two numbers does to their comparison. -/
theorem swap_compare (u v : UnpackedFloat) : (u.compare v).map Ordering.swap = v.compare u := by
  have hsign : ∀ s s' : Sign, (compare s s').swap = compare s' s := by decide
  cases u with
  | notANumber => cases v <;> rfl
  | infinity s => cases v <;> cases s <;> simp [UnpackedFloat.compare, hsign]
  | zero s =>
    cases v with
    | notANumber => rfl
    | infinity s' => cases s' <;> rfl
    | zero s' => rfl
    | finite s' m' e' _ => cases s' <;> rfl
  | finite s m e _ =>
    cases v with
    | notANumber => rfl
    | infinity s' => cases s' <;> rfl
    | zero s' => cases s <;> rfl
    | finite s' m' e' _ =>
      cases s <;> cases s' <;>
        simp [UnpackedFloat.compare, Ordering.swap_then, Int.compare_swap, Nat.compare_swap]

/-- A NaN compares with nothing. -/
theorem isSome_compare (u v : UnpackedFloat) :
    (u.compare v).isSome = ((comparisonKey u).isSome && (comparisonKey v).isSome) := by
  rw [isSome_comparisonKey, isSome_comparisonKey]
  cases u with
  | notANumber => cases v <;> rfl
  | infinity s => cases v <;> cases s <;> rfl
  | zero s =>
    cases v with
    | infinity s' => cases s' <;> rfl
    | finite s' m' e' _ => cases s' <;> rfl
    | notANumber | zero => rfl
  | finite s m e _ =>
    cases v with
    | infinity s' => cases s' <;> rfl
    | finite s' m' e' _ => cases s <;> cases s' <;> rfl
    | notANumber => rfl
    | zero s' => cases s <;> rfl

/-- **The order of binary numbers.** -/
theorem lt_iff_comparisonKey (u v : UnpackedFloat) :
    u.lt v = true ↔ ∃ a ∈ comparisonKey u, ∃ b ∈ comparisonKey v, a < b := by
  cases u with
  | notANumber => simp [comparisonKey, UnpackedFloat.lt, UnpackedFloat.compare]
  | infinity s =>
    cases v with
    | notANumber => cases s <;> simp [comparisonKey, UnpackedFloat.lt, UnpackedFloat.compare]
    | infinity s' => cases s <;> cases s' <;> decide
    | zero s' => cases s <;> cases s' <;> decide
    | finite s' m' e' _ =>
      cases s <;> cases s' <;>
        simp [comparisonKey, orderKey, UnpackedFloat.lt, UnpackedFloat.compare,
          Prod.Lex.toLex_lt_toLex]
  | zero s =>
    cases v with
    | notANumber => simp [comparisonKey, UnpackedFloat.lt, UnpackedFloat.compare]
    | infinity s' => cases s <;> cases s' <;> decide
    | zero s' => simpa [comparisonKey] using lt_iff_orderKey (x := .zero s) (y := .zero s') rfl rfl
    | finite s' m' e' hm' =>
      simpa [comparisonKey] using lt_iff_orderKey (x := .zero s) (y := .finite s' m' e' hm') rfl rfl
  | finite s m e hm =>
    cases v with
    | notANumber => simp [comparisonKey, UnpackedFloat.lt, UnpackedFloat.compare]
    | infinity s' =>
      cases s <;> cases s' <;>
        simp [comparisonKey, orderKey, UnpackedFloat.lt, UnpackedFloat.compare,
          Prod.Lex.toLex_lt_toLex]
    | zero s' =>
      simpa [comparisonKey] using lt_iff_orderKey (x := .finite s m e hm) (y := .zero s') rfl rfl
    | finite s' m' e' hm' =>
      simpa [comparisonKey] using
        lt_iff_orderKey (x := .finite s m e hm) (y := .finite s' m' e' hm') rfl rfl

theorem le_iff_comparisonKey (u v : UnpackedFloat) :
    u.le v = true ↔ ∃ a ∈ comparisonKey u, ∃ b ∈ comparisonKey v, a ≤ b := by
  have hle : u.le v = true ↔ (u.compare v).isSome = true ∧ ¬ v.lt u = true := by
    rw [UnpackedFloat.lt, ← swap_compare u v, UnpackedFloat.le]
    cases u.compare v with
    | none => simp
    | some o => cases o <;> simp
  rw [hle, isSome_compare, Bool.and_eq_true, Option.isSome_iff_exists, Option.isSome_iff_exists,
    lt_iff_comparisonKey]
  constructor
  · rintro ⟨⟨⟨a, ha⟩, ⟨b, hb⟩⟩, hnot⟩
    exact ⟨a, ha, b, hb, not_lt.1 fun h => hnot ⟨b, hb, a, ha, h⟩⟩
  · rintro ⟨a, ha, b, hb, hab⟩
    refine ⟨⟨⟨a, ha⟩, ⟨b, hb⟩⟩, ?_⟩
    rintro ⟨b', hb', a', ha', hlt⟩
    obtain rfl := Option.mem_unique ha ha'
    obtain rfl := Option.mem_unique hb hb'
    exact hab.not_gt hlt

/-- Packing makes no NaN. -/
theorem isNaN_unpack_pack (F : Float.Model.Format) {u : UnpackedFloat} (hu : u.isNaN = false) :
    (unpack F (pack F u)).isNaN = false := by
  have hfields : unpackExponent (pack F u) = -1#_ → unpackMantissa (pack F u) = 0#_ := by
    fun_cases pack with
    | case1 => exact absurd hu (by decide)
    | case2 s => simp [packedInfinity]
    | case3 s => simp [packedZero]
    | case4 s m e hm exponent hrange => simp [packedInfinity]
    | case5 s m e hm bits exponent hrange hnormal =>
      intro hones
      simp only [BitVec.neg_one_eq_allOnes, ← BitVec.toNat_inj, unpackExponent_packComponents,
        BitVec.toNat_ofNat, BitVec.toNat_allOnes] at hones
      rw [Nat.mod_eq_of_lt (by omega)] at hones
      omega
    | case6 s m e hm bits exponent hrange hsubnormal => simp [Nat.pos_iff_ne_zero.1 F.he]
  unfold unpack
  simp only
  split
  · rw [if_pos (hfields ‹_›)]
    rfl
  · split
    · split <;> rfl
    · rfl

theorem isNaN_neg {u : UnpackedFloat} (hu : u.isNaN = false) : u.neg.isNaN = false := by
  cases u with
  | notANumber => exact hu
  | infinity | zero | finite => rfl

theorem isNaN_of_isFinite {u : UnpackedFloat} (hu : u.isFinite = true) : u.isNaN = false := by
  cases u with
  | notANumber => exact absurd hu (by decide)
  | infinity | zero | finite => rfl

/-- Scalars that are compared as the numbers that they are unpacked to. -/
theorem comparable_of_unpack {α : Type} [Scalar α] (F : Float.Model.Format)
    (number : α → UnpackedFloat)
    (hle : ∀ {x y : α}, x ≤ y ↔ (number x).le (number y) = true)
    (hlt : ∀ {x y : α}, x < y ↔ (number x).lt (number y) = true)
    (hfinite : ∀ x : α, Scalar.isFinite x = (number x).isFinite)
    (hneg : ∀ x : α, number (-x) = unpack F (pack F (number x).neg)) : Scalar.Comparable α := by
  refine .of_key (fun x => comparisonKey (number x)) (fun {x y} => ?_) (fun {x y} => ?_)
    (fun {x} hx => ?_) fun {x} hx => ?_
  · rw [hle, le_iff_comparisonKey]
  · rw [hlt, lt_iff_comparisonKey]
  · rw [hfinite] at hx
    rw [isSome_comparisonKey, isNaN_of_isFinite hx]
    rfl
  · rw [isSome_comparisonKey, Bool.not_eq_true'] at hx
    rw [isSome_comparisonKey, hneg, isNaN_unpack_pack F (isNaN_neg hx)]
    rfl

end Binary

instance : Scalar.Comparable Float :=
  Binary.comparable_of_unpack .binary64 (fun x => x.toModel.unpack)
    ⟨fun h => of_decide_eq_true h, fun h => decide_eq_true h⟩
    ⟨fun h => of_decide_eq_true h, fun h => decide_eq_true h⟩ (fun _ => rfl) fun _ => rfl

instance : Scalar.Comparable Float32 :=
  Binary.comparable_of_unpack .binary32 (fun x => x.toModel.unpack)
    ⟨fun h => of_decide_eq_true h, fun h => decide_eq_true h⟩
    ⟨fun h => of_decide_eq_true h, fun h => decide_eq_true h⟩ (fun _ => rfl) fun _ => rfl

theorem Binary.not_le_self_iff (u : UnpackedFloat) : ¬ u.le u = true ↔ u.isNaN = true := by
  rw [Binary.le_iff_comparisonKey, ← Bool.not_eq_false, not_iff_not, ← Bool.not_eq_true',
    ← Binary.isSome_comparisonKey, Option.isSome_iff_exists]
  exact ⟨fun ⟨a, ha, _⟩ => ⟨a, ha⟩, fun ⟨a, ha⟩ => ⟨a, ha, a, ha, le_rfl⟩⟩

/-- The NaNs of binary64 do not compare with themselves. -/
theorem Scalar.isNaN_double_iff (x : Float) : Scalar.IsNaN x ↔ x.isNaN = true :=
  (not_congr ⟨fun h => of_decide_eq_true h, fun h => decide_eq_true h⟩).trans
    (Binary.not_le_self_iff x.toModel.unpack)

/-- The NaNs of binary32 do not compare with themselves. -/
theorem Scalar.isNaN_single_iff (x : Float32) : Scalar.IsNaN x ↔ x.isNaN = true :=
  (not_congr ⟨fun h => of_decide_eq_true h, fun h => decide_eq_true h⟩).trans
    (Binary.not_le_self_iff x.toModel.unpack)

/-! ## Extreme values -/

section Comparable

variable {α : Type} [Scalar α] [Scalar.Comparable α]

open Scalar.Comparable

theorem Scalar.le_of_lt {x y : α} (h : x < y) : x ≤ y := by
  obtain ⟨hx, hy, hnot⟩ := lt_iff.1 h
  exact (le_or_le hx hy).resolve_right hnot

theorem Scalar.le_of_not_lt {x y : α} (hx : x ≤ x) (hy : y ≤ y) (h : ¬ x < y) : y ≤ x := by
  by_contra hnot
  exact h (lt_iff.2 ⟨hx, hy, hnot⟩)

/-- The absolute value of a NaN is a NaN, and of nothing else. -/
theorem Scalar.isNaN_abs_iff {x : α} : Scalar.IsNaN (Scalar.abs x) ↔ Scalar.IsNaN x := by
  unfold Scalar.abs
  split
  · rename_i hneg
    have hx : x ≤ x := (lt_iff.1 hneg).1
    exact iff_of_false (not_not_intro (neg_le_self hx)) (not_not_intro hx)
  · rfl

/-- **A running maximum passes over a NaN.**  A bound on it is a bound on all other values. -/
theorem foldl_largest_le_iff {ι : Type} (f : ι → α) (xs : List ι) {start : α} (bound : α)
    (hstart : start ≤ start) :
    xs.foldl (fun largest i => if largest < f i then f i else largest) start ≤ bound ↔
      start ≤ bound ∧ ∀ i ∈ xs, Scalar.IsNaN (f i) ∨ f i ≤ bound := by
  induction xs generalizing start with
  | nil => simp
  | cons i xs ih =>
    rw [List.foldl_cons, List.forall_mem_cons]
    by_cases hlt : start < f i
    · obtain ⟨-, hself, -⟩ := lt_iff.1 hlt
      rw [if_pos hlt, ih hself]
      have hnan : ¬ Scalar.IsNaN (f i) := not_not_intro hself
      constructor
      · rintro ⟨hi, hxs⟩
        exact ⟨le_trans (Scalar.le_of_lt hlt) hi, Or.inr hi, hxs⟩
      · rintro ⟨-, hi, hxs⟩
        exact ⟨hi.resolve_left hnan, hxs⟩
    · rw [if_neg hlt, ih hstart]
      constructor
      · rintro ⟨hbound, hxs⟩
        refine ⟨hbound, ?_, hxs⟩
        by_cases hself : f i ≤ f i
        · exact Or.inr (le_trans (Scalar.le_of_not_lt hstart hself hlt) hbound)
        · exact Or.inl hself
      · rintro ⟨hbound, -, hxs⟩
        exact ⟨hbound, hxs⟩

/-- A running minimum of values that compare. -/
theorem le_foldl_least_iff (xs : List α) {start : α} (bound : α) (hstart : start ≤ start)
    (hxs : ∀ x ∈ xs, x ≤ x) :
    bound ≤ xs.foldl (fun least x => if x < least then x else least) start ↔
      bound ≤ start ∧ ∀ x ∈ xs, bound ≤ x := by
  induction xs generalizing start with
  | nil => simp
  | cons x xs ih =>
    obtain ⟨hx, hxs⟩ := List.forall_mem_cons.1 hxs
    rw [List.foldl_cons, List.forall_mem_cons]
    by_cases hlt : x < start
    · rw [if_pos hlt, ih hx hxs]
      constructor
      · rintro ⟨hbound, h⟩
        exact ⟨le_trans hbound (Scalar.le_of_lt hlt), hbound, h⟩
      · rintro ⟨-, hbound, h⟩
        exact ⟨hbound, h⟩
    · rw [if_neg hlt, ih hstart hxs]
      constructor
      · rintro ⟨hbound, h⟩
        exact ⟨hbound, le_trans hbound (Scalar.le_of_not_lt hx hstart hlt), h⟩
      · rintro ⟨hbound, -, h⟩
        exact ⟨hbound, h⟩

/-- A bound on the least entry of a vector that has one is a bound on all entries. -/
theorem Scalar.le_minimum_iff_forall {n : Nat} (hn : 0 < n) {v : Vector α n} (bound : α)
    (hv : ∀ i, v.get i ≤ v.get i) :
    bound ≤ Scalar.minimum v.toList ↔ ∀ i, bound ≤ v.get i := by
  have hself := (forall_mem_toList_iff (P := fun a => a ≤ a)).2 hv
  rw [← forall_mem_toList_iff (P := fun a => bound ≤ a)]
  cases hlist : v.toList with
  | nil =>
    have hlength := v.length_toList
    rw [hlist, List.length_nil] at hlength
    omega
  | cons first rest =>
    rw [hlist, List.forall_mem_cons] at hself
    rw [List.forall_mem_cons]
    exact le_foldl_least_iff rest bound hself.1 hself.2

/-! ## The verdict -/

variable {n : Nat}

theorem Lcp.largestResidual_le_iff_of_comparable (p : Lcp α n) (x : Point α n) (bound : α)
    (hzero : (0 : α) ≤ 0) :
    p.largestResidual x ≤ bound ↔ 0 ≤ bound ∧
      ∀ i, Scalar.IsNaN (p.residual x i) ∨ Scalar.abs (p.residual x i) ≤ bound := by
  have hfold := foldl_largest_le_iff (fun i => Scalar.abs (p.residual x i)) (List.finRange n) bound
    hzero
  simp only [List.mem_finRange, true_implies, Scalar.isNaN_abs_iff] at hfold
  exact hfold

/-- **What the verdict says.**  It says nothing about a row whose residual is a NaN. -/
theorem Lcp.isWithin_iff_of_isFinite (hn : 0 < n) (p : Lcp α n) (x : Point α n) {tolerance : α}
    (hw : ∀ i, Scalar.isFinite (x.w.get i) = true) (hz : ∀ i, Scalar.isFinite (x.z.get i) = true)
    (htolerance : 0 ≤ tolerance) :
    (p.metrics x).isWithin tolerance = true ↔
      (∀ i, Scalar.IsNaN (p.residual x i) ∨ Scalar.abs (p.residual x i) ≤ tolerance) ∧
        Scalar.abs x.inner ≤ tolerance ∧
        ∀ i, -tolerance ≤ x.w.get i ∧ -tolerance ≤ x.z.get i := by
  have hzero : (0 : α) ≤ 0 := (le_self_of_le htolerance).1
  unfold Metrics.isWithin metrics
  simp only [Bool.and_eq_true, decide_eq_true_eq, and_assoc]
  rw [p.largestResidual_le_iff_of_comparable x tolerance hzero, and_iff_right htolerance,
    Scalar.le_minimum_iff_forall hn _ fun i => le_self_of_isFinite (hw i),
    Scalar.le_minimum_iff_forall hn _ fun i => le_self_of_isFinite (hz i), forall_and]

/-- An accepted pair has a residual within the tolerance in every row exactly if none of the
residuals is a NaN. -/
theorem Lcp.accepted_rows_iff (hn : 0 < n) (p : Lcp α n) (x : Point α n) {tolerance : α}
    (hw : ∀ i, Scalar.isFinite (x.w.get i) = true) (hz : ∀ i, Scalar.isFinite (x.z.get i) = true)
    (htolerance : 0 ≤ tolerance) (haccepted : (p.metrics x).isWithin tolerance = true) :
    (∀ i, Scalar.abs (p.residual x i) ≤ tolerance) ↔ ∀ i, ¬ Scalar.IsNaN (p.residual x i) := by
  obtain ⟨hrows, -, -⟩ := (p.isWithin_iff_of_isFinite hn x hw hz htolerance).1 haccepted
  refine forall_congr' fun i => ⟨fun h => ?_, fun h => (hrows i).resolve_left h⟩
  rw [← Scalar.isNaN_abs_iff]
  exact not_not_intro (le_self_of_le h).1

end Comparable

/-- **What an accepted pair has not been checked for.**  With binary64 and binary32 numbers, finite
entries `w`, `z` and a tolerance that is not negative, a pair is accepted exactly if every residual
is a NaN or within the tolerance, the inner product is within it, and no entry is further below
zero.  So acceptance bounds the residual of every row exactly if no row has a NaN. -/
theorem Lcp.isWithin_floating_iff (hn : 0 < n) :
    (∀ (p : Lcp Float n) (x : Point Float n) (tolerance : Float),
      (∀ i, (x.w.get i).isFinite = true) → (∀ i, (x.z.get i).isFinite = true) → 0 ≤ tolerance →
      ((p.metrics x).isWithin tolerance = true ↔
        (∀ i, (p.residual x i).isNaN = true ∨ Scalar.abs (p.residual x i) ≤ tolerance) ∧
          Scalar.abs x.inner ≤ tolerance ∧
          ∀ i, -tolerance ≤ x.w.get i ∧ -tolerance ≤ x.z.get i) ∧
      (((p.metrics x).isWithin tolerance = true → ∀ i, Scalar.abs (p.residual x i) ≤ tolerance) ↔
        ((p.metrics x).isWithin tolerance = true → ∀ i, (p.residual x i).isNaN = false))) ∧
    (∀ (p : Lcp Float32 n) (x : Point Float32 n) (tolerance : Float32),
      (∀ i, (x.w.get i).isFinite = true) → (∀ i, (x.z.get i).isFinite = true) → 0 ≤ tolerance →
      ((p.metrics x).isWithin tolerance = true ↔
        (∀ i, (p.residual x i).isNaN = true ∨ Scalar.abs (p.residual x i) ≤ tolerance) ∧
          Scalar.abs x.inner ≤ tolerance ∧
          ∀ i, -tolerance ≤ x.w.get i ∧ -tolerance ≤ x.z.get i) ∧
      (((p.metrics x).isWithin tolerance = true → ∀ i, Scalar.abs (p.residual x i) ≤ tolerance) ↔
        ((p.metrics x).isWithin tolerance = true → ∀ i, (p.residual x i).isNaN = false))) := by
  refine ⟨fun p x tolerance hw hz htolerance => ⟨?_, ?_⟩,
    fun p x tolerance hw hz htolerance => ⟨?_, ?_⟩⟩
  · simp only [← Scalar.isNaN_double_iff]
    exact p.isWithin_iff_of_isFinite hn x hw hz htolerance
  · simp only [← Bool.not_eq_true, ← Scalar.isNaN_double_iff]
    exact forall_congr' (p.accepted_rows_iff hn x hw hz htolerance)
  · simp only [← Scalar.isNaN_single_iff]
    exact p.isWithin_iff_of_isFinite hn x hw hz htolerance
  · simp only [← Bool.not_eq_true, ← Scalar.isNaN_single_iff]
    exact forall_congr' (p.accepted_rows_iff hn x hw hz htolerance)

/-- A problem with fractions that have no finite binary expansion. -/
def tenths (α : Type) [Scalar α] [OfScientific α] : Lcp α 2 :=
  ⟨#v[-0.3, 0.7],
    Dense.ofFn fun i j => if i.val = 0 then if j.val = 0 then 3.0 else 1.0
      else if j.val = 0 then 1.0 else 0.1⟩

/-- The solution of `tenths`, up to the rounding of its entries. -/
def roundedSolution (α : Type) [Scalar α] [OfScientific α] : Point α 2 := ⟨#v[0, 0.8], #v[0.1, 0]⟩

/-- The residuals of a rounded solution are not zero.  They are numbers, so that acceptance bounds
them. -/
theorem isWithin_floating_rounded :
    (((tenths Float).metrics (roundedSolution Float)).isWithin 1e-8 = true ∧
      (∀ i, ¬ Scalar.abs ((tenths Float).residual (roundedSolution Float) i) ≤ 0) ∧
      ∀ i, Scalar.abs ((tenths Float).residual (roundedSolution Float) i) ≤ 1e-8) ∧
    ((tenths Float32).metrics (roundedSolution Float32)).isWithin 1e-6 = true ∧
      ¬ Scalar.abs ((tenths Float32).residual (roundedSolution Float32) 1) ≤ 0 ∧
      ∀ i, Scalar.abs ((tenths Float32).residual (roundedSolution Float32) i) ≤ 1e-6 := by
  have hdouble : ((tenths Float).metrics (roundedSolution Float)).isWithin 1e-8 = true := by
    decide +kernel
  have hsingle : ((tenths Float32).metrics (roundedSolution Float32)).isWithin 1e-6 = true := by
    decide +kernel
  obtain ⟨-, hrows⟩ := (Lcp.isWithin_floating_iff (n := 2) (by decide)).1 (tenths Float)
    (roundedSolution Float) 1e-8 (by decide +kernel) (by decide +kernel) (by decide +kernel)
  obtain ⟨-, hrows'⟩ := (Lcp.isWithin_floating_iff (n := 2) (by decide)).2 (tenths Float32)
    (roundedSolution Float32) 1e-6 (by decide +kernel) (by decide +kernel) (by decide +kernel)
  exact ⟨⟨hdouble, by decide +kernel, hrows.2 (fun _ => by decide +kernel) hdouble⟩,
    hsingle, by decide +kernel, hrows'.2 (fun _ => by decide +kernel) hsingle⟩

/-- A problem whose first row may overflow in both directions. -/
def cancelling : Lcp Float 2 :=
  ⟨#v[0, 0],
    Dense.ofFn fun i j => if i.val = 0 then if j.val = 0 then 1e200 else -1e200 else 0⟩

/-- A pair that does not fit the first row of `cancelling`, which cannot be evaluated at it: the
products with the two entries of `z` are different numbers, but both overflow. -/
def unevaluated : Point Float 2 := ⟨#v[0, 0], #v[1e200, 5e199]⟩

/-- All data are finite, and in exact arithmetic the first residual is not zero, since the entries
of `z` differ.  It is computed as a difference of two infinities, and the pair is accepted. -/
theorem isWithin_cancelling :
    cancelling.fault? = none ∧
      (∀ i, (unevaluated.w.get i).isFinite = true ∧ (unevaluated.z.get i).isFinite = true) ∧
      unevaluated.z.get 1 < unevaluated.z.get 0 ∧
      (cancelling.metrics unevaluated).isWithin 0 = true ∧
      (cancelling.residual unevaluated 0).isNaN = true ∧
      ¬ Scalar.abs (cancelling.residual unevaluated 0) ≤ 0 := by
  decide +kernel

end Complementarity
