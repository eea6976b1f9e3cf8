import Mathlib.LinearAlgebra.Matrix.AbsoluteValue
import Mathlib.LinearAlgebra.Matrix.ToLinearEquiv
import Mathlib.Data.Nat.Log
import Mathlib.Data.Rat.Lemmas
import Complementarity.Proofs.IntegerData
import Complementarity.Proofs.Solution

/-!
# Tableaux of integer problems

Pivoting divides over and over, but the entries of a tableau depend on its basis alone.  For a
problem with integer data they are quotients of determinants of integer matrices, so they stay small
however many pivots are made.

* **the system as a matrix** — `Lcp.column`: the columns of `w - M z - e z_n`, in which no entry
  exceeds `Lcp.height`; those of the basic variables make up `Lcp.basisMatrix`, which is invertible
  (`Lcp.IsDictionary.det_basisMatrix_ne_zero`);
* **columns of a tableau solve systems** — `Lcp.IsDictionary.exists_mulVec_eq`: the matrix of the
  basis takes each of the `2 n + 2` columns to a vector of small integers;
* **Cramer's rule** — `Lcp.IsDictionary.entry_eq_div`: every entry is a quotient of determinants,
  the denominator being that of the matrix of the basis;
* **the bounds** — `Solver.common_denominator`: in every state of a solve the numerators and the
  common denominator are at most `n! K ^ n`, and the size that is reported is at most twice the
  number of binary digits of that.
-/

namespace Complementarity

open Matrix Nat Tableau Variable

variable {n : Nat}

/-! ## The system as a matrix -/

namespace Lcp

variable (p : Lcp ℤ n)

/-- The left side of the augmented system `w - M z - e z_n = q`. -/
def leftSide (p : Lcp ℚ n) : (Variable n → ℚ) →ₗ[ℚ] Fin n → ℚ where
  toFun x i := x (.w i.castSucc) - ∑ j : Fin n, p.m.entry i j * x (.z j.castSucc) - x (artificial n)
  map_add' x y := by
    funext i
    simp only [Pi.add_apply, mul_add, Finset.sum_add_distrib]
    ring
  map_smul' a x := by
    funext i
    simp only [Pi.smul_apply, smul_eq_mul, RingHom.id_apply, mul_sub, Finset.mul_sum]
    congr 2
    exact Finset.sum_congr rfl fun j _ => mul_left_comm _ _ _

theorem augmented_iff_leftSide {p : Lcp ℚ n} {g : Fin (n + 1) → ℚ} {x : Variable n → ℚ} :
    p.Augmented g x ↔ ∀ i, p.leftSide x i = p.q.get i * g 0 + g i.succ := by
  refine ⟨fun h i => ?_, fun h => ⟨fun i => ?_⟩⟩
  · have hrow := h.row i
    simp only [smul_eq_mul] at hrow
    show x (.w i.castSucc) - _ - _ = _
    rw [hrow]
    ring
  · have hi : x (.w i.castSucc) - _ - _ = _ := h i
    simp only [smul_eq_mul]
    linarith

/-- The column of a variable in the system. -/
def column : Variable n → Fin n → ℤ
  | .w j, i => if j = i.castSucc then 1 else 0
  | .z j, i => if h : j.val < n then -p.m.entry i ⟨j.val, h⟩ else -1

/-- The columns of the basic variables. -/
def basisMatrix (b : Basis n) : Matrix (Fin n) (Fin n) ℤ := of fun i r => p.column (b.inRow r) i

theorem natAbs_column_le (u : Variable n) (i : Fin n) : (p.column u i).natAbs ≤ p.height := by
  have hone := p.one_le_height
  cases u with
  | w j =>
    rw [column]
    split
    · exact hone
    · exact Nat.zero_le _
  | z j =>
    rw [column]
    split
    · rw [Int.natAbs_neg]
      exact p.natAbs_entry_le i _
    · exact hone

/-- A column of the system is what the left side makes of a unit vector. -/
theorem leftSide_single (u : Variable n) (i : Fin n) :
    p.toRat.leftSide (Pi.single u 1) i = p.column u i := by
  show (Pi.single u 1 : Variable n → ℚ) (.w i.castSucc) -
    ∑ j : Fin n, p.toRat.m.entry i j * (Pi.single u 1 : Variable n → ℚ) (.z j.castSucc) -
      (Pi.single u 1 : Variable n → ℚ) (artificial n) = _
  unfold artificial
  cases u with
  | w j => simp [column, Pi.single_apply, eq_comm]
  | z j =>
    cases j using Fin.lastCases with
    | last => simp [column, (Fin.castSucc_lt_last _).ne]
    | cast j => simp [column, Pi.single_apply, (Fin.castSucc_lt_last _).ne']

end Lcp

/-- An assignment along a column is a combination of unit vectors. -/
theorem Basis.along_eq_sum {b : Basis n} {left : Fin (n + 1)} (hb : b.Arranged left)
    (y : Fin n → ℚ) (c : Fin (n + 1)) (v : ℚ) :
    b.along y c v =
      ∑ r, y r • Pi.single (b.inRow r) (1 : ℚ) + v • Pi.single (b.inColumn c) (1 : ℚ) := by
  funext u
  simp only [Pi.add_apply, Finset.sum_apply, Pi.smul_apply, smul_eq_mul]
  by_cases hu : u ∈ b.basicSet
  · obtain ⟨r, rfl⟩ := mem_basicSet.1 hu
    rw [along_inRow hb, Finset.sum_eq_single r]
    · simp [hb.inRow_ne_inColumn]
    · intro r' _ hr'
      rw [Pi.single_eq_of_ne (hb.inRow_injective.ne hr'.symm), mul_zero]
    · exact fun h => absurd (Finset.mem_univ r) h
  · have hrow : ∀ r, u ≠ b.inRow r := fun r heq => hu (mem_basicSet.2 ⟨r, heq.symm⟩)
    rw [along_of_notMem y c v hu, Finset.sum_eq_zero fun r _ => by
      rw [Pi.single_eq_of_ne (hrow r), mul_zero], zero_add]
    simp [Pi.single_apply]

/-- What the left side makes of an assignment along a column. -/
theorem Lcp.leftSide_along (p : Lcp ℤ n) {b : Basis n} {left : Fin (n + 1)} (hb : b.Arranged left)
    (y : Fin n → ℚ) (c : Fin (n + 1)) (v : ℚ) (i : Fin n) :
    p.toRat.leftSide (b.along y c v) i =
      ((p.basisMatrix b).map (fun x => (x : ℚ)) *ᵥ y) i + v * p.column (b.inColumn c) i := by
  rw [Basis.along_eq_sum hb]
  simp only [map_add, map_sum, map_smul, Pi.add_apply, Finset.sum_apply, Pi.smul_apply,
    leftSide_single, smul_eq_mul, mulVec, dotProduct, map_apply, basisMatrix, of_apply]
  congr 1
  exact Finset.sum_congr rfl fun r _ => mul_comm _ _

/-! ## Cramer's rule -/

/-- **Cramer's rule** for a system with integer data. -/
theorem det_mul_eq_of_mulVec_eq {B : Matrix (Fin n) (Fin n) ℤ} {x : Fin n → ℚ} {v : Fin n → ℤ}
    (h : B.map (fun a => (a : ℚ)) *ᵥ x = fun i => (v i : ℚ)) (r : Fin n) :
    (B.det : ℚ) * x r = ((B.updateCol r v).det : ℚ) := by
  have hadjugate : (B.map fun a => (a : ℚ)).adjugate *ᵥ (B.map (fun a => (a : ℚ)) *ᵥ x) =
      (B.det : ℚ) • x := by
    rw [mulVec_mulVec, adjugate_mul, smul_mulVec, one_mulVec, Int.cast_det]
  calc (B.det : ℚ) * x r
      = ((B.map fun a => (a : ℚ)).adjugate *ᵥ fun i => (v i : ℚ)) r := by
        rw [← h, hadjugate, Pi.smul_apply, smul_eq_mul]
    _ = ((B.map fun a => (a : ℚ)).updateCol r fun i => (v i : ℚ)).det := by
        rw [← cramer_eq_adjugate_mulVec, cramer_apply]
    _ = ((B.updateCol r v).det : ℚ) := by
        rw [Int.cast_det, map_updateCol]
        rfl

/-- A determinant of small integers. -/
theorem natAbs_det_le {B : Matrix (Fin n) (Fin n) ℤ} {K : ℕ} (h : ∀ i j, (B i j).natAbs ≤ K) :
    B.det.natAbs ≤ n ! * K ^ n := by
  have habs : ∀ i j, AbsoluteValue.abs (B i j) ≤ (K : ℤ) := by
    intro i j
    rw [AbsoluteValue.abs_apply, ← Int.natCast_natAbs]
    exact_mod_cast h i j
  have hdet := det_le habs
  rw [AbsoluteValue.abs_apply, ← Int.natCast_natAbs, Fintype.card_fin, nsmul_eq_mul] at hdet
  exact_mod_cast hdet

namespace Lcp.IsDictionary

variable {p : Lcp ℤ n} {t : Tableau ℚ n} {b : Basis n} {left : Fin (n + 1)}

/-- **The matrix of a basis is invertible**: a vector that it takes to zero is a solution without
perturbation, and there the basic variables are zero. -/
theorem det_basisMatrix_ne_zero (h : p.toRat.IsDictionary t b) (hb : b.Arranged left) :
    (p.basisMatrix b).det ≠ 0 := by
  intro hdet
  have hsingular : ((p.basisMatrix b).map fun x => (x : ℚ)).det = 0 := by
    rw [← Int.cast_det, hdet, Int.cast_zero]
  obtain ⟨y, hy, hzero⟩ := exists_mulVec_eq_zero_iff.2 hsingular
  have hx : p.toRat.Augmented (0 : Fin (n + 1) → ℚ) (b.along y left 0) := by
    refine augmented_iff_leftSide.2 fun i => ?_
    rw [p.leftSide_along hb, hzero]
    simp
  refine hy (funext fun r => ?_)
  have hrow := h.eq_of_column hx left (fun c hc => Basis.along_zero_of_notMem y left
    (hb.inColumn_notMem_basicSet c)) r
  rw [Basis.along_inRow hb, Basis.along_zero_of_notMem y left (hb.inColumn_notMem_basicSet left)]
    at hrow
  simpa [valueAt] using hrow

/-- The coefficients of a nonbasic variable solve the system for its column. -/
theorem mulVec_coefficient (h : p.toRat.IsDictionary t b) (hb : b.Arranged left)
    (c : Fin (n + 1)) :
    (p.basisMatrix b).map (fun x => (x : ℚ)) *ᵥ (fun r => t.coefficient r c) =
      fun i => ((-p.column (b.inColumn c) i : ℤ) : ℚ) := by
  have halong := h.augmented_along hb (0 : Fin (n + 1) → ℚ) c 1
  simp only [valueAt, Pi.zero_apply, smul_eq_mul, mul_zero, Finset.sum_const_zero, zero_add,
    mul_one] at halong
  funext i
  have hi := augmented_iff_leftSide.1 halong i
  rw [p.leftSide_along hb] at hi
  simp only [Pi.zero_apply, mul_zero, add_zero, one_mul] at hi
  rw [Int.cast_neg]
  linarith

/-- The coefficients of a power of the infinitesimal solve the system for those that it has before
the first pivot. -/
theorem mulVec_polynomial (h : p.toRat.IsDictionary t b) (hb : b.Arranged left)
    (k : Fin (n + 1)) :
    (p.basisMatrix b).map (fun x => (x : ℚ)) *ᵥ (fun r => t.entry r (polynomialColumn k)) =
      fun i => ((if k = 0 then p.q.get i else if k = i.succ then 1 else 0 : ℤ) : ℚ) := by
  have halong := h.augmented_along hb (Pi.single k (1 : ℚ)) left 0
  have hvalue : ∀ r, t.valueAt (Pi.single k (1 : ℚ)) r = t.entry r (polynomialColumn k) := by
    intro r
    simp [valueAt, Pi.single_apply]
  simp only [hvalue, smul_zero, add_zero] at halong
  funext i
  have hi := augmented_iff_leftSide.1 halong i
  rw [p.leftSide_along hb, zero_mul, add_zero] at hi
  rw [hi, get_q_toRat]
  cases k using Fin.cases with
  | zero => simp
  | succ k => simp [Pi.single_apply, eq_comm]

/-- **Columns of a tableau solve systems** with small right sides. -/
theorem exists_mulVec_eq (h : p.toRat.IsDictionary t b) (hb : b.Arranged left)
    (c : Fin (2 * n + 2)) :
    ∃ v : Fin n → ℤ, (∀ i, (v i).natAbs ≤ p.height) ∧
      (p.basisMatrix b).map (fun x => (x : ℚ)) *ᵥ (fun r => t.entry r c) =
        fun i => (v i : ℚ) := by
  by_cases hc : c.val ≤ n
  · refine ⟨_, fun i => ?_, h.mulVec_coefficient hb ⟨c.val, Nat.lt_succ_of_le hc⟩⟩
    rw [Int.natAbs_neg]
    exact p.natAbs_column_le _ i
  · obtain ⟨k, rfl⟩ : ∃ k : Fin (n + 1), c = polynomialColumn k :=
      ⟨⟨c.val - (n + 1), by omega⟩, Fin.ext (by simp only [polynomialColumn]; omega)⟩
    refine ⟨_, fun i => ?_, h.mulVec_polynomial hb k⟩
    split
    · exact p.natAbs_get_q_le i
    · split
      · exact p.one_le_height
      · exact Nat.zero_le _

/-- **Every entry is a quotient of determinants**, with the same denominator in the whole
tableau. -/
theorem entry_eq_div (h : p.toRat.IsDictionary t b) (hb : b.Arranged left) (r : Fin n)
    (c : Fin (2 * n + 2)) :
    ∃ a : ℤ, a.natAbs ≤ n ! * p.height ^ n ∧ t.entry r c = a / (p.basisMatrix b).det := by
  obtain ⟨v, hv, hsolves⟩ := h.exists_mulVec_eq hb c
  refine ⟨((p.basisMatrix b).updateCol r v).det, natAbs_det_le fun i j => ?_, ?_⟩
  · rw [updateCol_apply]
    split
    · exact hv i
    · exact p.natAbs_column_le _ i
  · have hdet : ((p.basisMatrix b).det : ℚ) ≠ 0 := by
      exact_mod_cast h.det_basisMatrix_ne_zero hb
    rw [← det_mul_eq_of_mulVec_eq hsolves r]
    field_simp

end Lcp.IsDictionary

/-! ## Sizes -/

theorem bitLength_le_bitLength {a b : ℕ} (h : a ≤ b) : bitLength a ≤ bitLength b := by
  unfold bitLength
  by_cases ha : a = 0
  · simp [ha]
  · have hb : b ≠ 0 := by omega
    rw [if_neg ha, if_neg hb, log2_eq_log_two, log2_eq_log_two]
    exact Nat.succ_le_succ (Nat.log_mono_right h)

/-- The size of a quotient of integers is at most that of the two. -/
theorem bits_div_le {a d : ℤ} {N : ℕ} (hd : d ≠ 0) (ha : a.natAbs ≤ N) (hdN : d.natAbs ≤ N) :
    Scalar.bits (a / d : ℚ) ≤ 2 * bitLength N := by
  rw [← Rat.divInt_eq_div]
  have hnum : (Rat.divInt a d).num.natAbs ≤ N := by
    by_cases hzero : a = 0
    · simp [hzero]
    · exact (Nat.le_of_dvd (Int.natAbs_pos.2 hzero)
        (Int.natAbs_dvd_natAbs.2 (Rat.num_dvd a hd))).trans ha
  have hden : (Rat.divInt a d).den ≤ N :=
    (Nat.le_of_dvd (Int.natAbs_pos.2 hd) (Int.natCast_dvd.1 (Rat.den_dvd a d))).trans hdN
  show bitLength _ + bitLength _ ≤ _
  rw [two_mul]
  exact Nat.add_le_add (bitLength_le_bitLength hnum) (bitLength_le_bitLength hden)

namespace Lcp

variable (p : Lcp ℤ n)

theorem height_le (hn : 0 < n) : p.height ≤ n ! * p.height ^ n := by
  have hpow : p.height ≤ p.height ^ n := Nat.le_self_pow hn.ne' _
  exact hpow.trans (Nat.le_mul_of_pos_left _ (factorial_pos n))

/-- **The bounds in every state** of a solve. -/
theorem exists_common_denominator {budget : ℕ} {s : State ℚ n} (hs : s ∈ p.toRat.states budget) :
    ∃ d : ℤ, d ≠ 0 ∧ d.natAbs ≤ n ! * p.height ^ n ∧
      ∀ r c, ∃ a : ℤ, a.natAbs ≤ n ! * p.height ^ n ∧ s.tableau.entry r c = a / d := by
  obtain ⟨first, hstart, hs⟩ := p.toRat.mem_states_iff.1 hs
  have hvalid := State.Valid.of_mem_trace hstart hs
  refine ⟨_, hvalid.dictionary.det_basisMatrix_ne_zero hvalid.arranged,
    natAbs_det_le fun i r => p.natAbs_column_le _ i,
    hvalid.dictionary.entry_eq_div hvalid.arranged⟩

/-- The bound on the size that is reported. -/
theorem largestBits_run_le (hn : 0 < n) {settings : Settings} (hsizes : settings.recordSizes = true)
    (d : Diagnostics) (workspace : Tableau ℚ n) (buffer : Point ℚ n) :
    ∃ bits, (p.toRat.run settings d workspace buffer).1.cost.largestBits = some bits ∧
      bits ≤ 2 * bitLength (n ! * p.height ^ n) := by
  rw [largestBits_run_eq, if_pos hsizes]
  refine ⟨_, rfl, (SizeRecord.maxBits_observe_le_iff _ _ _).2 ⟨Nat.zero_le _, fun x hx => ?_⟩⟩
  have hheight := p.height_le hn
  rcases p.toRat.mem_observed hx with ⟨i, rfl⟩ | ⟨s, hs, r, c, rfl⟩
  · have hinteger : p.toRat.q.get i = (p.q.get i : ℚ) / ((1 : ℤ) : ℚ) := by simp
    rw [hinteger]
    exact bits_div_le one_ne_zero ((p.natAbs_get_q_le i).trans hheight)
      (p.one_le_height.trans hheight)
  · obtain ⟨d, hd, hdN, hentries⟩ := p.exists_common_denominator hs
    obtain ⟨a, ha, heq⟩ := hentries r c
    rw [heq]
    exact bits_div_le hd ha hdN

end Lcp

/-- **Growth of the entries.**  For integer data all entries after a pivot have a common
denominator; it and the numerators are at most `n! K ^ n`, where `K` is the largest absolute value
in the data.  The sizes that a solve reports are bounded accordingly, whatever its budget is. -/
theorem Solver.common_denominator (s : Solver ℚ) {p : Problem ℚ} {lcp : Lcp ℤ p.dim}
    (hp : p.sized = .ok lcp.toRat) (hs : s.settings.isUsable = true) :
    ∃ o, (s.solve p).1 = .ok o ∧
      o.pivots = (lcp.toRat.states (s.settings.budget p.dim)).map State.lastPivot ∧
      (∀ t ∈ lcp.toRat.states (s.settings.budget p.dim),
        ∃ d : ℤ, d ≠ 0 ∧ d.natAbs ≤ p.dim ! * lcp.height ^ p.dim ∧
          ∀ r c, ∃ a : ℤ, a.natAbs ≤ p.dim ! * lcp.height ^ p.dim ∧
            t.tableau.entry r c = a / d) ∧
      (s.settings.recordSizes = true → ∃ bits, o.cost.largestBits = some bits ∧
        bits ≤ 2 * bitLength (p.dim ! * lcp.height ^ p.dim)) :=
  ⟨_, s.solve_fst hp hs, lcp.toRat.pivots_run_eq _ _ _ _,
    fun _ => lcp.exists_common_denominator,
    fun hsizes => lcp.largestBits_run_le (Problem.dim_pos hp) hsizes _ _ _⟩

/-- A problem with a band of nonzero entries along the diagonal. -/
def banded : Lcp ℤ 3 :=
  ⟨#v[-3, -5, 2], Dense.ofFn fun i j =>
    if i = j then #v[4, 3, 2].get i else if i.val + j.val = 2 then 0 else 1⟩

theorem common_denominator_banded :
    ∃ o, ((Solver.fresh ℚ { recordSizes := true } {}).solve (.ofLcp banded.toRat)).1 = .ok o ∧
      o.status = .nontrivialSolution ∧
      (∀ t ∈ banded.toRat.states 5, ∃ d : ℤ, d ≠ 0 ∧ d.natAbs ≤ 750 ∧
        ∀ r c, ∃ a : ℤ, a.natAbs ≤ 750 ∧ t.tableau.entry r c = a / d) ∧
      ∃ bits, o.cost.largestBits = some bits ∧ bits ≤ 20 := by
  have hstatus : ((Solver.fresh ℚ { recordSizes := true } {}).solve
      (.ofLcp banded.toRat)).1.toOption.map Outcome.status = some .nontrivialSolution := by
    decide +kernel
  have hsized : (Problem.ofLcp banded.toRat).sized = .ok banded.toRat := rfl
  have hheight : 3 ! * banded.height ^ 3 = 750 := by decide +kernel
  have hlength : 2 * bitLength 750 = 20 := by decide +kernel
  obtain ⟨o, ho, -, hentries, hbits⟩ :=
    (Solver.fresh ℚ { recordSizes := true } {}).common_denominator hsized rfl
  rw [ho] at hstatus
  have hbound := hbits rfl
  rw [← hlength, ← hheight]
  exact ⟨o, ho, Option.some.inj hstatus, hentries, hbound⟩

end Complementarity
