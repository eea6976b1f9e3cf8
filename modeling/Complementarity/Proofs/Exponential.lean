import Mathlib.Algebra.Order.Group.PosPart
import Mathlib.Algebra.Order.Ring.GeomSum
import Mathlib.Order.Interval.Finset.Fin
import Complementarity.Proofs.FixedDimension
import Complementarity.Proofs.IntegerData
import Complementarity.Proofs.VertexCount
import Complementarity.Proofs.Zigzag

/-!
# A family that needs exponentially many pivots

In the problem of dimension `n` of the exponential family every constant is `-1`, and the matrix is
triangular, with ones on the diagonal and twos below.  So each row is the one before it, but for the
two pairs of variables and the perturbation, and a solution of the augmented system is known by the
value of the artificial variable.  A run meets every vertex, and the vertices can be counted.

* **solutions are zigzags** — `Lcp.IsComplementary.gap_eq`: the difference of the two variables of a
  pair is got from that of the pair before by reflecting and lowering it, so the value of the
  artificial variable tells all others (`Lcp.IsComplementary.parts_gap`);
* **the vertices** — `mem_meetable_exponential`: before the pair that is left out the basic
  variables may be any, and after it they are known, which makes `2 ^ n - 1` vertices
  (`card_meetable_exponential`);
* **the run** — `threshold_exponential`: the principal minors of the matrix are positive, so a run
  is as long as the number of the vertices tells, and has `2 ^ n` states;
* **the solver** — `Solver.solve_exponential`: with a limit of `2 ^ n` iterations or more it returns
  the solution, and with every smaller limit it fails.
-/

namespace Complementarity

/-! ## The problem -/

open Tableau Variable

/-- The member of the exponential family of dimension `n`, in rational numbers. -/
def exponential (n : ℕ) : Lcp ℚ n := Lcp.toRat (n := n) (Benchmark.murty n).data

section Rows

variable {n : ℕ} {V : Type} [AddCommGroup V] [Module ℚ V]

theorem get_q_exponential (i : Fin n) : (exponential n).q.get i = -1 := by
  have hget : (Vector.replicate n (-1 : ℤ)).get i = -1 := Vector.getElem_replicate i.isLt
  refine (Lcp.get_q_toRat (n := n) _ i).trans ?_
  show ((Vector.replicate n (-1 : ℤ)).get i : ℚ) = -1
  rw [hget, Int.cast_neg, Int.cast_one]

theorem entry_m_exponential (i j : Fin n) :
    (exponential n).m.entry i j = if j < i then 2 else if i = j then 1 else 0 := by
  refine (Lcp.entry_m_toRat (n := n) _ i j).trans ?_
  show ((Benchmark.murtyMatrix n).entry i j : ℚ) = _
  rw [Benchmark.murtyMatrix, Dense.entry_ofFn]
  split
  · norm_num
  · split <;> norm_num

/-- The first row of the matrix. -/
theorem sum_exponential_zero (hn : 0 < n) (f : Fin n → V) :
    ∑ j, (exponential n).m.entry ⟨0, hn⟩ j • f j = f ⟨0, hn⟩ := by
  rw [Finset.sum_eq_single ⟨0, hn⟩]
  · rw [entry_m_exponential, if_neg (lt_irrefl _), if_pos rfl, one_smul]
  · intro j _ hj
    rw [entry_m_exponential, if_neg (Fin.lt_def.not.2 (Nat.not_lt_zero _)), if_neg hj.symm,
      zero_smul]
  · exact fun h => absurd (Finset.mem_univ _) h

/-- Two rows of the matrix that follow each other. -/
theorem sum_exponential_succ {i : ℕ} (hi : i + 1 < n) (f : Fin n → V) :
    ∑ j, (exponential n).m.entry ⟨i + 1, hi⟩ j • f j =
      ∑ j, (exponential n).m.entry ⟨i, Nat.lt_of_succ_lt hi⟩ j • f j +
        f ⟨i, Nat.lt_of_succ_lt hi⟩ + f ⟨i + 1, hi⟩ := by
  have hentry : ∀ j, (exponential n).m.entry ⟨i + 1, hi⟩ j • f j =
      (exponential n).m.entry ⟨i, Nat.lt_of_succ_lt hi⟩ j • f j +
        (if ⟨i, Nat.lt_of_succ_lt hi⟩ = j then f j else 0) +
        (if ⟨i + 1, hi⟩ = j then f j else 0) := by
    intro j
    rw [entry_m_exponential, entry_m_exponential]
    simp only [Fin.lt_def, Fin.ext_iff]
    rcases Nat.lt_trichotomy j.val i with hj | hj | hj
    · rw [if_pos (by omega), if_pos hj, if_neg (by omega), if_neg (by omega), add_zero, add_zero]
    · rw [if_pos (by omega), if_neg (by omega), if_pos hj.symm, if_pos hj.symm,
        if_neg (by omega), add_zero, two_smul, one_smul]
    · rw [if_neg (by omega : ¬ j.val < i + 1), if_neg (by omega : ¬ j.val < i),
        if_neg (by omega : ¬ i = j.val), if_neg (by omega : ¬ i = j.val), zero_smul, zero_add,
        zero_add]
      split
      · rw [one_smul]
      · rw [zero_smul]
  simp only [hentry, Finset.sum_add_distrib, Finset.sum_ite_eq, Finset.mem_univ, if_true]

end Rows

/-! ## Complementary solutions are zigzags -/

section Complementary

variable {n : ℕ}

/-- What is left of a row if the artificial variable has a value and no `z_j` enters it. -/
def level (n : ℕ) (a : Perturbed n) : Perturbed n :=
  a - Perturbed.power ⟨0, n.succ_pos⟩ + Perturbed.term n 0

theorem level_eq (a : Perturbed n) : level n a = a - Perturbed.power 0 + Perturbed.term n 0 := rfl

variable {x : Variable n → Perturbed n}

/-- The equations of the system, each row by the one before it. -/
theorem augmented_exponential_iff :
    (exponential n).Augmented Perturbed.power x ↔
      (∀ h : 0 < n, x (.w (Fin.castSucc ⟨0, h⟩)) =
        level n (x (artificial n)) + x (.z (Fin.castSucc ⟨0, h⟩))) ∧
      ∀ i (h : i + 1 < n), x (.w (Fin.castSucc ⟨i + 1, h⟩)) =
        x (.w (Fin.castSucc ⟨i, Nat.lt_of_succ_lt h⟩)) +
          x (.z (Fin.castSucc ⟨i, Nat.lt_of_succ_lt h⟩)) + x (.z (Fin.castSucc ⟨i + 1, h⟩)) -
          (Perturbed.term n i - Perturbed.term n (i + 1)) := by
  constructor
  · intro hx
    refine ⟨fun h => ?_, fun i h => ?_⟩
    · rw [hx.row ⟨0, h⟩, sum_exponential_zero, get_q_exponential, neg_one_smul, level_eq,
        Perturbed.term_of_lt h]
      abel
    · rw [hx.row ⟨i + 1, h⟩, hx.row ⟨i, Nat.lt_of_succ_lt h⟩, sum_exponential_succ h,
        get_q_exponential, get_q_exponential, Perturbed.term_of_lt h,
        Perturbed.term_of_lt (Nat.lt_of_succ_lt h)]
      abel
  · rintro ⟨hzero, hsucc⟩
    refine ⟨fun i => ?_⟩
    obtain ⟨i, hi⟩ := i
    induction i with
    | zero =>
      rw [hzero hi, sum_exponential_zero, get_q_exponential, neg_one_smul, level_eq,
        Perturbed.term_of_lt hi]
      abel
    | succ i ih =>
      rw [hsucc i hi, ih (Nat.lt_of_succ_lt hi), sum_exponential_succ hi, get_q_exponential,
        get_q_exponential, Perturbed.term_of_lt hi, Perturbed.term_of_lt (Nat.lt_of_succ_lt hi)]
      abel

/-- The parts of the difference of two values of which one is zero. -/
theorem parts_sub_of_or {V : Type} [AddCommGroup V] [LinearOrder V] [IsOrderedAddMonoid V]
    {a b : V} (ha : 0 ≤ a) (hb : 0 ≤ b) (h : a = 0 ∨ b = 0) : (a - b)⁺ = a ∧ (a - b)⁻ = b := by
  rcases h with rfl | rfl
  · rw [zero_sub, posPart_neg, negPart_neg, negPart_eq_zero, posPart_eq_self]
    exact ⟨hb, hb⟩
  · rw [sub_zero, posPart_eq_self, negPart_eq_zero]
    exact ⟨ha, ha⟩

/-- **The gaps of a complementary solution**, that is the differences of the partners, are the
zigzag that starts at the level of the artificial variable. -/
theorem Lcp.IsComplementary.gap_eq (hx : (exponential n).IsComplementary x) (i : Fin n) :
    x (.w i.castSucc) - x (.z i.castSucc) =
      zigzag (Perturbed.term n) (level n (x (artificial n))) i := by
  obtain ⟨hzero, hsucc⟩ := augmented_exponential_iff.1 hx.augmented
  obtain ⟨i, hi⟩ := i
  induction i with
  | zero =>
    rw [hzero hi, add_sub_cancel_right]
    rfl
  | succ i ih =>
    have hprevious := ih (Nat.lt_of_succ_lt hi)
    obtain ⟨hw, hz⟩ := parts_sub_of_or (hx.nonneg (.w (Fin.castSucc ⟨i, Nat.lt_of_succ_lt hi⟩)))
      (hx.nonneg (.z (Fin.castSucc ⟨i, Nat.lt_of_succ_lt hi⟩))) (hx.complementary _)
    have habs : |zigzag (Perturbed.term n) (level n (x (artificial n))) i| =
        x (.w (Fin.castSucc ⟨i, Nat.lt_of_succ_lt hi⟩)) +
          x (.z (Fin.castSucc ⟨i, Nat.lt_of_succ_lt hi⟩)) := by
      rw [← hprevious, ← posPart_add_negPart, hw, hz]
    rw [hsucc i hi, zigzag, habs]
    abel

/-- The variables of a pair are the parts of its gap. -/
theorem Lcp.IsComplementary.parts_gap (hx : (exponential n).IsComplementary x) (i : Fin n) :
    x (.w i.castSucc) = (zigzag (Perturbed.term n) (level n (x (artificial n))) i)⁺ ∧
      x (.z i.castSucc) = (zigzag (Perturbed.term n) (level n (x (artificial n))) i)⁻ := by
  obtain ⟨hw, hz⟩ := parts_sub_of_or (hx.nonneg (.w i.castSucc)) (hx.nonneg (.z i.castSucc))
    (hx.complementary _)
  rw [← hx.gap_eq i, hw, hz]
  exact ⟨rfl, rfl⟩

/-- The values of the variables that have given gaps, and of which one in each pair is zero. -/
noncomputable def ofGaps (gap : ℕ → Perturbed n) (a : Perturbed n) : Variable n → Perturbed n
  | .w i => if i.val < n then (gap i)⁺ else 0
  | .z i => if i.val < n then (gap i)⁻ else a

section Gaps

variable (gap : ℕ → Perturbed n) (a : Perturbed n)

@[simp] theorem ofGaps_w (i : Fin n) : ofGaps gap a (.w i.castSucc) = (gap i)⁺ := if_pos i.isLt

@[simp] theorem ofGaps_z (i : Fin n) : ofGaps gap a (.z i.castSucc) = (gap i)⁻ := if_pos i.isLt

@[simp] theorem ofGaps_artificial : ofGaps gap a (artificial n) = a := if_neg (lt_irrefl n)

@[simp] theorem ofGaps_formal : ofGaps gap a (formal n) = 0 := if_neg (lt_irrefl n)

theorem ofGaps_nonneg (ha : 0 ≤ a) (u : Variable n) : 0 ≤ ofGaps gap a u := by
  cases u using rowCases with
  | artificial => exact (ofGaps_artificial gap a).symm ▸ ha
  | formal => exact (ofGaps_formal gap a).ge
  | w i | z i => simp

theorem ofGaps_eq_zero_or (u : Variable n) : ofGaps gap a u = 0 ∨ ofGaps gap a u.partner = 0 := by
  have hparts : ∀ i : Fin n, (gap i)⁺ = 0 ∨ (gap i)⁻ = 0 := by
    intro i
    rcases le_total 0 (gap i) with h | h
    · exact Or.inr (negPart_eq_zero.2 h)
    · exact Or.inl (posPart_eq_zero.2 h)
  cases u using rowCases with
  | artificial => exact Or.inr (ofGaps_formal gap a)
  | formal => exact Or.inl (ofGaps_formal gap a)
  | w i => simpa [partner] using hparts i
  | z i => simpa [partner] using (hparts i).symm

end Gaps

/-- Every value of the artificial variable has a complementary solution. -/
theorem exists_isComplementary_exponential {a : Perturbed n} (ha : 0 ≤ a) :
    ∃ x, (exponential n).IsComplementary x ∧ x (artificial n) = a := by
  refine ⟨ofGaps (zigzag (Perturbed.term n) (level n a)) a,
    ⟨augmented_exponential_iff.2 ⟨fun h => ?_, fun i h => ?_⟩, ofGaps_nonneg _ a ha,
      ofGaps_eq_zero_or _ a, ofGaps_formal _ a⟩, ofGaps_artificial _ a⟩
  · rw [ofGaps_w, ofGaps_z, ofGaps_artificial, ← sub_eq_iff_eq_add, posPart_sub_negPart]
    rfl
  · rw [ofGaps_w, ofGaps_w, ofGaps_z, ofGaps_z, posPart_add_negPart, add_sub_right_comm,
      ← sub_eq_iff_eq_add, posPart_sub_negPart]
    rfl

/-! ## The vertices -/

/-- A complementary solution is a vertex of a choice if the variables of the choice are those that
are positive. -/
theorem isVertex_choice {k : Fin n} {T : Finset (Fin n)} {x : Variable n → Perturbed n}
    (hx : (exponential n).IsComplementary x) (ha : 0 < x (artificial n))
    (hw : ∀ i : Fin n, 0 < x (.w i.castSucc) ↔ i ≠ k ∧ i ∉ T)
    (hz : ∀ i : Fin n, 0 < x (.z i.castSucc) ↔ i ≠ k ∧ i ∈ T) :
    (exponential n).IsVertex (choice k T) x := by
  refine ⟨hx.augmented, fun u hu => ?_, fun u hu => ?_⟩
  · cases u using rowCases with
    | artificial => exact ha
    | formal => exact absurd hu (formal_notMem_choice k T)
    | w i => exact (hw i).2 (w_mem_choice.1 hu)
    | z i => exact (hz i).2 (z_mem_choice.1 hu)
  · cases u using rowCases with
    | artificial => exact absurd (artificial_mem_choice k T) hu
    | formal => exact hx.formal_eq_zero
    | w i =>
      by_contra hne
      exact hu (w_mem_choice.2 ((hw i).1 (lt_of_le_of_ne (hx.nonneg _) (Ne.symm hne))))
    | z i =>
      by_contra hne
      exact hu (z_mem_choice.2 ((hz i).1 (lt_of_le_of_ne (hx.nonneg _) (Ne.symm hne))))

/-- **A vertex is a zigzag with a zero** at the pair that is left out, and with the signs of the
choice at the others. -/
theorem hasVertex_choice_iff {k : Fin n} {T : Finset (Fin n)} :
    (exponential n).HasVertex (choice k T) ↔
      ∃ a, 0 < a ∧ zigzag (Perturbed.term n) (level n a) k = 0 ∧
        ∀ i : Fin n, i ≠ k → (i ∈ T → zigzag (Perturbed.term n) (level n a) i < 0) ∧
          (i ∉ T → 0 < zigzag (Perturbed.term n) (level n a) i) := by
  constructor
  · rintro ⟨x, hx⟩
    have hcomplementary := hx.isComplementary (fun _ => partner_notMem_choice)
      (formal_notMem_choice k T)
    refine ⟨x (artificial n), hx.pos _ (artificial_mem_choice k T), ?_, fun i hi => ⟨?_, ?_⟩⟩
    · rw [← hcomplementary.gap_eq k, hx.zero _ fun hmem => (w_mem_choice.1 hmem).1 rfl,
        hx.zero _ fun hmem => (z_mem_choice.1 hmem).1 rfl, sub_zero]
    · intro hmem
      rw [← hcomplementary.gap_eq i, hx.zero _ fun hw => (w_mem_choice.1 hw).2 hmem, zero_sub,
        neg_lt_zero]
      exact hx.pos _ (z_mem_choice.2 ⟨hi, hmem⟩)
    · intro hmem
      rw [← hcomplementary.gap_eq i, hx.zero _ fun hz => hmem (z_mem_choice.1 hz).2, sub_zero]
      exact hx.pos _ (w_mem_choice.2 ⟨hi, hmem⟩)
  · rintro ⟨a, ha, hzero, hsigns⟩
    obtain ⟨x, hx, rfl⟩ := exists_isComplementary_exponential ha.le
    have hw : ∀ i : Fin n, 0 < x (.w i.castSucc) ↔ i ≠ k ∧ i ∉ T := by
      intro i
      rw [(hx.parts_gap i).1]
      refine posPart_pos_iff.trans ⟨fun hpos => ?_, fun h => (hsigns i h.1).2 h.2⟩
      have hi : i ≠ k := by
        rintro rfl
        exact hpos.ne' hzero
      exact ⟨hi, fun hmem => lt_asymm hpos ((hsigns i hi).1 hmem)⟩
    have hz : ∀ i : Fin n, 0 < x (.z i.castSucc) ↔ i ≠ k ∧ i ∈ T := by
      intro i
      rw [(hx.parts_gap i).2]
      refine negPart_pos_iff.trans ⟨fun hneg => ?_, fun h => (hsigns i h.1).1 h.2⟩
      have hi : i ≠ k := by
        rintro rfl
        exact hneg.ne hzero
      refine ⟨hi, ?_⟩
      by_contra hmem
      exact lt_asymm hneg ((hsigns i hi).2 hmem)
    exact ⟨x, isVertex_choice hx ha hw hz⟩

/-- The row after a given one, if there is one. -/
def following (k : Fin n) : Finset (Fin n) := Finset.univ.filter fun i => i.val = k.val + 1

theorem mem_following {i k : Fin n} : i ∈ following k ↔ i.val = k.val + 1 := by
  simp [following]

/-- What is known of the rows from `k` on. -/
theorem exists_eq_union_following_iff {k : Fin n} {T : Finset (Fin n)} :
    (∃ U ⊆ Finset.Iio k, T = U ∪ following k) ↔
      k ∉ T ∧ ∀ i, k < i → (i ∈ T ↔ i.val = k.val + 1) := by
  constructor
  · rintro ⟨U, hU, rfl⟩
    have hfrom : ∀ i, k ≤ i → (i ∈ U ∪ following k ↔ i.val = k.val + 1) := by
      intro i hi
      rw [Finset.mem_union, mem_following, or_iff_right]
      exact fun hmem => hi.not_gt (Finset.mem_Iio.1 (hU hmem))
    refine ⟨fun hk => ?_, fun i hi => hfrom i hi.le⟩
    have hval := (hfrom k le_rfl).1 hk
    omega
  · rintro ⟨hk, hafter⟩
    refine ⟨T.filter fun i => i < k, fun i hi => ?_, ?_⟩
    · exact Finset.mem_Iio.2 (Finset.mem_filter.1 hi).2
    · ext i
      rw [Finset.mem_union, Finset.mem_filter, mem_following]
      rcases lt_trichotomy i k with hlt | rfl | hgt
      · have hval : i.val < k.val := hlt
        simp only [hlt, and_true]
        exact ⟨Or.inl, fun h => h.resolve_right (by omega)⟩
      · simp [hk]
      · simp [hafter i hgt, hgt.not_gt]

/-- **The vertices**: any `z_i` before the pair that is left out, the one right after it, and none
of the others. -/
theorem mem_meetable_exponential {k : Fin n} {T : Finset (Fin n)} :
    ⟨k, T⟩ ∈ (exponential n).meetable ↔ ∃ U ⊆ Finset.Iio k, T = U ∪ following k := by
  have hsteep := Perturbed.steep_term n
  rw [exists_eq_union_following_iff]
  simp only [Lcp.mem_meetable, hasVertex_choice_iff]
  constructor
  · rintro ⟨hT, a, -, hzero, hsigns⟩
    refine ⟨fun hk => Finset.ne_of_mem_erase (hT hk) rfl, fun i hgt => ?_⟩
    have hval : k.val < i.val := hgt
    constructor
    · intro hi
      by_contra hne
      exact lt_asymm ((hsigns i hgt.ne').1 hi) (hsteep.zigzag_pos hzero (by omega) i.isLt)
    · intro heq
      by_contra hi
      have hneg := hsteep.zigzag_neg hzero (heq ▸ i.isLt)
      rw [← heq] at hneg
      exact lt_asymm hneg ((hsigns i hgt.ne').2 hi)
  · rintro ⟨hk, hafter⟩
    obtain ⟨y, hy, hzero, hsigns⟩ := hsteep.exists_zigzag k.isLt {i | ∃ h : i < n, ⟨i, h⟩ ∈ T}
    have hlevel : level n (y + Perturbed.power 0 - Perturbed.term n 0) = y := by
      rw [level_eq]
      abel
    refine ⟨fun i hi => ?_, y + Perturbed.power 0 - Perturbed.term n 0, ?_, ?_, fun i hi => ?_⟩
    · exact Finset.mem_erase.2 ⟨fun heq => hk (heq ▸ hi), Finset.mem_univ i⟩
    · exact add_sub_pos_of_abs_lt hy (Perturbed.three_smul_term_lt k.pos)
    · rw [hlevel, hzero]
    · rw [hlevel]
      rcases lt_or_gt_of_ne hi with hlt | hgt
      · obtain ⟨hin, hout⟩ := hsigns i hlt
        exact ⟨fun hmem => hin ⟨i.isLt, hmem⟩, fun hmem => hout fun ⟨_, h⟩ => hmem h⟩
      · have hval : k.val < i.val := hgt
        rw [hafter i hgt]
        constructor
        · intro heq
          rw [heq]
          exact hsteep.zigzag_neg hzero (heq ▸ i.isLt)
        · intro hne
          exact hsteep.zigzag_pos hzero (by omega) i.isLt

/-- **The number of vertices.** -/
theorem card_meetable_exponential (n : ℕ) : (exponential n).meetable.card = 2 ^ n - 1 := by
  have hsigma : (exponential n).meetable =
      Finset.univ.sigma fun k => (Finset.Iio k).powerset.image (· ∪ following k) := by
    ext ⟨k, T⟩
    rw [mem_meetable_exponential, Finset.mem_sigma, and_iff_right (Finset.mem_univ k),
      Finset.mem_image]
    simp only [Finset.mem_powerset, eq_comm]
  have hcard : ∀ k : Fin n,
      ((Finset.Iio k).powerset.image (· ∪ following k)).card = 2 ^ k.val := by
    intro k
    have hcancel : ∀ U ∈ (Finset.Iio k).powerset, (U ∪ following k) \ following k = U := by
      intro U hU
      refine Finset.union_sdiff_cancel_right (Finset.disjoint_left.2 fun i hi hfollows => ?_)
      have hlt : i < k := Finset.mem_Iio.1 (Finset.mem_powerset.1 hU hi)
      have heq := mem_following.1 hfollows
      rw [Fin.lt_def] at hlt
      omega
    rw [Finset.card_image_of_injOn, Finset.card_powerset, Fin.card_Iio]
    intro U hU U' hU' (heq : U ∪ following k = U' ∪ following k)
    rw [← hcancel U hU, heq, hcancel U' hU']
  rw [hsigma, Finset.card_sigma]
  simp only [hcard]
  rw [Fin.sum_univ_eq_sum_range (fun i => 2 ^ i) n, Nat.geomSum_eq (le_refl 2)]
  simp

end Complementary

/-! ## The solution -/

section Run

variable {n : ℕ}

/-- The solution `z = (1, 0, …, 0)`, `w = (0, 1, …, 1)`. -/
def exponentialSolution (n : ℕ) : Point ℚ n where
  w := Vector.ofFn fun i => if i.val = 0 then 0 else 1
  z := Vector.ofFn fun i => if i.val = 0 then 1 else 0

theorem isSolution_exponentialSolution (n : ℕ) :
    (exponential n).IsSolution (exponentialSolution n) := by
  have hw : ∀ i, (exponentialSolution n).w.get i = if i.val = 0 then 0 else 1 :=
    vector_get_ofFn _
  have hz : ∀ i, (exponentialSolution n).z.get i = if i.val = 0 then 1 else 0 :=
    vector_get_ofFn _
  refine ⟨fun i => ?_, fun i => ?_, fun i => ?_, fun i => ?_⟩
  · obtain ⟨i, hi⟩ := i
    have hsum : ∑ j, (exponential n).m.entry ⟨i, hi⟩ j * (exponentialSolution n).z.get j =
        if i = 0 then 1 else 2 := by
      induction i with
      | zero =>
        refine (sum_exponential_zero hi _).trans ?_
        rw [hz]
        rfl
      | succ i ih =>
        refine (sum_exponential_succ hi _).trans ?_
        simp only [smul_eq_mul]
        rw [ih (Nat.lt_of_succ_lt hi), hz, hz]
        split <;> norm_num
    rw [hsum, hw, get_q_exponential]
    split <;> norm_num
  · rw [hw]
    split <;> norm_num
  · rw [hz]
    split <;> norm_num
  · rw [hw, hz]
    split <;> norm_num

theorem noSignReversal_exponential (n : ℕ) : (exponential n).m.NoSignReversal :=
  (Dense.isPMatrix_murty n).noSignReversal

/-! ## The run -/

theorem start?_exponential_ne_none (hn : 0 < n) : (exponential n).start? ≠ none := by
  intro hstart
  have hnonneg := Lcp.nonneg_of_start_eq_none hstart ⟨0, hn⟩
  rw [get_q_exponential] at hnonneg
  norm_num at hnonneg

/-- **The length of the run.** -/
theorem threshold_exponential (hn : 0 < n) : (exponential n).threshold = (2 ^ n : ℕ) := by
  cases hstart : (exponential n).start? with
  | none => exact absurd hstart (start?_exponential_ne_none hn)
  | some s =>
    rw [Lcp.threshold_eq_card_meetable (noSignReversal_exponential n) hstart,
      card_meetable_exponential, Nat.sub_add_cancel Nat.one_le_two_pow]

/-- A run whose budget is large enough. -/
theorem run_exponential_of_le (hn : 0 < n) (settings : Settings) (d : Diagnostics)
    (workspace : Tableau ℚ n) (buffer : Point ℚ n) (h : 2 ^ n ≤ settings.budget n) :
    ((exponential n).run settings d workspace buffer).1.status = .nontrivialSolution ∧
      ((exponential n).run settings d workspace buffer).1.point = exponentialSolution n ∧
      ((exponential n).run settings d workspace buffer).1.cost.iterations = 2 ^ n ∧
      ((exponential n).run settings d workspace buffer).1.cost.pivots = 2 ^ n := by
  have hlength : ((exponential n).states (settings.budget n)).length ≤ settings.budget n := by
    refine Lcp.length_states_le_of_threshold_le ?_
    rw [threshold_exponential hn]
    exact Nat.cast_le.2 h
  have hcount : ((exponential n).states (settings.budget n)).length = 2 ^ n := by
    have hthreshold := Lcp.threshold_eq_of_length_le hlength
    rw [threshold_exponential hn] at hthreshold
    exact (Nat.cast_inj.1 hthreshold).symm
  have hstatus : ((exponential n).run settings d workspace buffer).1.status =
      .nontrivialSolution := by
    cases (exponential n).exit_run settings d workspace buffer with
    | trivial hstart _ _ => exact absurd hstart (start?_exponential_ne_none hn)
    | solution _ _ _ _ hstatus _ => exact hstatus
    | overflow _ _ _ _ hrow _ _ => nomatch hrow
    | ray _ _ _ hstatus _ =>
      exact absurd hstatus ((exponential n).status_run_ne_noSolution
        (noSignReversal_exponential n).isStrictlySemimonotone settings d workspace buffer)
    | outOfBudget hspent _ _ => exact absurd hlength (by omega)
  have hsolved : ((exponential n).run settings d workspace buffer).1.status.isSolved = true := by
    rw [hstatus, Status.isSolved]
  refine ⟨hstatus, ?_, ?_, ?_⟩
  · exact ((exponential n).isSolution_run settings d workspace buffer hsolved).eq_of_noSignReversal
      (isSolution_exponentialSolution n) (noSignReversal_exponential n)
  · rw [Lcp.iterations_run_eq, hcount, min_eq_right h]
  · rw [Lcp.cost_pivots_run, Lcp.pivots_run_eq, List.length_map, hcount]

/-- A run whose budget is too small. -/
theorem run_exponential_of_lt (hn : 0 < n) (settings : Settings) (d : Diagnostics)
    (workspace : Tableau ℚ n) (buffer : Point ℚ n) (h : settings.budget n < 2 ^ n) :
    ((exponential n).run settings d workspace buffer).1.status = .failedToConverge ∧
      ((exponential n).run settings d workspace buffer).1.cost.iterations = settings.budget n := by
  have hlength : ((exponential n).states (settings.budget n)).length = settings.budget n + 1 := by
    refine Lcp.length_states_of_lt_threshold ?_
    rw [threshold_exponential hn]
    exact Nat.cast_lt.2 h
  exact ⟨(Lcp.run_of_length_eq settings d workspace buffer hlength).1,
    (Lcp.cost_run_of_length_eq settings d workspace buffer hlength).1⟩

/-! ## The solver -/

theorem toList_exponentialSolution (hn : 0 < n) :
    (exponentialSolution n).z.toList = 1 :: List.replicate (n - 1) 0 ∧
      (exponentialSolution n).w.toList = 0 :: List.replicate (n - 1) 1 := by
  obtain ⟨n, rfl⟩ : ∃ m, n = m + 1 := ⟨n - 1, by omega⟩
  simp [exponentialSolution, Vector.toList_ofFn, List.ofFn_succ, List.ofFn_const]

/-- **The exponential family.**  A solver needs `2 ^ n` iterations for the member of dimension `n`,
as many as it makes pivots.  With fewer it fails, and with that many or more it returns the solution
`z = (1, 0, …, 0)`, `w = (0, 1, …, 1)`. -/
theorem Solver.solve_exponential (s : Solver ℚ) (hn : 1 ≤ n) :
    (∀ limit, 2 ^ n ≤ limit →
      ∃ o, ((s.limitedTo limit).solve (.ofLcp (exponential n))).1 = .ok o ∧
        o.status = .nontrivialSolution ∧ o.cost.iterations = 2 ^ n ∧ o.cost.pivots = 2 ^ n ∧
        o.point.z.toList = 1 :: List.replicate (n - 1) 0 ∧
        o.point.w.toList = 0 :: List.replicate (n - 1) 1) ∧
    ∀ limit, 1 ≤ limit → limit < 2 ^ n →
      ∃ o, ((s.limitedTo limit).solve (.ofLcp (exponential n))).1 = .ok o ∧
        o.status = .failedToConverge ∧ o.cost.iterations = limit := by
  refine ⟨fun limit hlimit => ?_, fun limit hlimit hlt => ?_⟩
  · have husable := s.settings.isUsable_limitedTo (Nat.one_le_two_pow.trans hlimit)
    obtain ⟨o, ho, hstatus, hcost, hw, hz⟩ := (s.limitedTo limit).exists_solve_ofLcp
      ((s.limitedTo limit).solveSized_fst (exponential n) hn husable)
    have hrun := run_exponential_of_le hn (s.settings.limitedTo limit) s.diagnostics
      (s.workspace n) (Point.zero ℚ n) hlimit
    obtain ⟨hz', hw'⟩ := toList_exponentialSolution hn
    refine ⟨o, ho, hstatus.trans hrun.1, ?_, ?_, ?_, ?_⟩
    · rw [hcost]
      exact hrun.2.2.1
    · rw [hcost]
      exact hrun.2.2.2
    · exact hz.trans ((congrArg (fun x => x.z.toList) hrun.2.1).trans hz')
    · exact hw.trans ((congrArg (fun x => x.w.toList) hrun.2.1).trans hw')
  · have husable := s.settings.isUsable_limitedTo hlimit
    obtain ⟨o, ho, hstatus, hcost, -, -⟩ := (s.limitedTo limit).exists_solve_ofLcp
      ((s.limitedTo limit).solveSized_fst (exponential n) hn husable)
    have hrun := run_exponential_of_lt hn (s.settings.limitedTo limit) s.diagnostics
      (s.workspace n) (Point.zero ℚ n) hlt
    refine ⟨o, ho, hstatus.trans hrun.1, ?_⟩
    rw [hcost]
    exact hrun.2

/-- Eight iterations in dimension three, and seven are not enough. -/
theorem solve_exponential_three :
    (∃ o, (((Solver.new ℚ {}).limitedTo 8).solve (.ofLcp (exponential 3))).1 = .ok o ∧
      o.status = .nontrivialSolution ∧ o.cost.iterations = 8 ∧ o.point.z.toList = [1, 0, 0] ∧
      o.point.w.toList = [0, 1, 1]) ∧
    ∃ o, (((Solver.new ℚ {}).limitedTo 7).solve (.ofLcp (exponential 3))).1 = .ok o ∧
      o.status = .failedToConverge ∧ o.cost.iterations = 7 := by
  obtain ⟨habove, hbelow⟩ := (Solver.new ℚ {}).solve_exponential (n := 3) (by decide)
  obtain ⟨o, ho, hstatus, hiterations, -, hz, hw⟩ := habove 8 le_rfl
  exact ⟨⟨o, ho, hstatus, hiterations, hz, hw⟩, hbelow 7 (by decide) (by decide)⟩

end Run

end Complementarity
