import Mathlib.Algebra.BigOperators.Fin
import Mathlib.Algebra.BigOperators.Pi
import Mathlib.Algebra.Order.Field.Rat
import Mathlib.Algebra.Order.Group.PiLex
import Mathlib.Algebra.Order.Module.Field
import Mathlib.Algebra.Order.Module.Synonym
import Mathlib.Tactic.Linarith
import Mathlib.Tactic.Module
import Complementarity.Lex
import Complementarity.Scalar.Instances

/-!
# The lexicographic order over the rationals

Over the rationals the coefficient lists that a run compares are the elements of an ordered
vector space, `Perturbed n`: polynomials of degree at most `n` in an infinitesimal, of which the
smaller one is the one that is smaller near zero.  What is proved here:

* **the comparisons decide the order** — `lexLt_ofFn_iff` and `lexNeg_ofFn_iff`: on coefficient
  lists of one length, `lexLt` is `<` and `lexNeg` is `< 0`;
* **the scan finds a minimum** — `lexLeast_eq_none_iff` and `le_of_lexLeast_eq_some`: the scan has
  a result unless there is no candidate, and no candidate's key is below that of the result;
* **without ties the order of the scan does not matter** — `lexLeast_eq_some_of_lt` and
  `lexLeast_eq_of_perm`: a candidate whose key is below all others is the result, and if no two
  candidates have the same key, there is one such candidate in any order;
* **scaling respects the order** — `Perturbed n` is an ordered vector space, so the arguments of
  exact arithmetic carry over to perturbed constants word by word.
-/

namespace Complementarity

/-- Polynomials of degree at most `n` in an infinitesimal, given by their coefficients from the
constant one on and ordered lexicographically. -/
abbrev Perturbed (n : Nat) : Type := Lex (Fin (n + 1) → ℚ)

/-! ## An ordered vector space -/

/-- Scaling by a positive number keeps the lexicographic order. -/
instance lex_posSMulStrictMono (m : Nat) : PosSMulStrictMono ℚ (Lex (Fin m → ℚ)) where
  smul_lt_smul_of_pos_left := by
    rintro a ha x y ⟨i, heq, hlt⟩
    refine ⟨i, fun j hj => ?_, mul_lt_mul_of_pos_left hlt ha⟩
    exact congrArg (a * ·) (heq j hj)

namespace Perturbed

variable {n : Nat}

/-- The powers of the infinitesimal, the zeroth one included. -/
def power (k : Fin (n + 1)) : Perturbed n := toLex (Pi.single k 1)

/-- A polynomial is the sum of its coefficients times the powers of the infinitesimal. -/
theorem sum_smul_power (f : Fin (n + 1) → ℚ) : ∑ k, f k • power k = toLex f :=
  (pi_eq_sum_univ' f).symm

/-- The constant coefficients decide, if they are not the same. -/
theorem lt_of_constant_lt {x y : Perturbed n} (h : ofLex x 0 < ofLex y 0) : x < y :=
  ⟨0, fun j hj => absurd hj (Fin.not_lt_zero j), h⟩

theorem constant_le {x y : Perturbed n} (h : x ≤ y) : ofLex x 0 ≤ ofLex y 0 :=
  not_lt.1 fun hlt => (lt_of_constant_lt hlt).not_ge h

/-- The constant coefficient of a polynomial that is not negative is not negative. -/
theorem constant_nonneg {x : Perturbed n} (h : 0 ≤ x) : 0 ≤ ofLex x 0 := constant_le h

/-- The first coefficient of a nonnegative polynomial that may not be zero is not negative. -/
theorem ofLex_nonneg {x : Perturbed n} (h : 0 ≤ x) {k : Fin (n + 1)}
    (hlower : ∀ j < k, ofLex x j = 0) : 0 ≤ ofLex x k :=
  Pi.apply_le_of_toLex (x := (0 : Fin (n + 1) → ℚ)) (y := ofLex x) h
    fun j hj => (hlower j hj).symm

/-- The first nonzero coefficient of a positive polynomial is positive, and there is one. -/
theorem exists_leading {x : Perturbed n} (h : 0 < x) :
    ∃ k, 0 < ofLex x k ∧ ∀ j < k, ofLex x j = 0 := by
  obtain ⟨k, hzero, hpos⟩ := h
  exact ⟨k, hpos, fun j hj => (hzero j hj).symm⟩

/-- A power of the infinitesimal is positive. -/
theorem power_pos (k : Fin (n + 1)) : 0 < power k := by
  refine ⟨k, fun j (hj : j < k) => ?_, ?_⟩
  · exact (Pi.single_eq_of_ne (M := fun _ => ℚ) hj.ne 1).symm
  · show (0 : ℚ) < (Pi.single k 1 : Fin (n + 1) → ℚ) k
    rw [Pi.single_eq_same]
    exact one_pos

end Perturbed

/-! ## The comparisons -/

/-- The first coefficient decides, and the others if it does not. -/
theorem toLex_lt_succ_iff {m : Nat} (f g : Fin (m + 1) → ℚ) :
    toLex f < toLex g ↔
      f 0 < g 0 ∨
        f 0 = g 0 ∧ toLex (fun i : Fin m => f i.succ) < toLex fun i : Fin m => g i.succ := by
  constructor
  · rintro ⟨i, heq, hlt⟩
    cases i using Fin.cases with
    | zero => exact Or.inl hlt
    | succ i =>
      refine Or.inr ⟨heq 0 (Fin.succ_pos i), i, fun j hj => ?_, hlt⟩
      exact heq j.succ (Fin.succ_lt_succ_iff.2 hj)
  · rintro (h | ⟨h, i, heq, hlt⟩)
    · exact ⟨0, fun j hj => absurd hj (Fin.not_lt_zero j), h⟩
    · refine ⟨i.succ, fun j hj => ?_, hlt⟩
      cases j using Fin.cases with
      | zero => exact h
      | succ j => exact heq j (Fin.succ_lt_succ_iff.1 hj)

/-- **The comparison decides the lexicographic order.** -/
theorem lexLt_ofFn_iff {m : Nat} (f g : Fin m → ℚ) :
    lexLt (List.ofFn f) (List.ofFn g) = true ↔ toLex f < toLex g := by
  induction m with
  | zero =>
    obtain rfl : f = g := Subsingleton.elim f g
    simp only [List.ofFn_zero, lexLt, Bool.false_eq_true, false_iff]
    exact lt_irrefl (toLex f)
  | succ m ih =>
    rw [List.ofFn_succ, List.ofFn_succ, lexLt, toLex_lt_succ_iff, ← ih]
    rcases lt_trichotomy (f 0) (g 0) with h | h | h
    · simp [h]
    · simp [h]
    · simp [h.not_gt, h.ne', h]

/-- A list is negative exactly when the polynomial is. -/
theorem lexNeg_ofFn_iff {m : Nat} (f : Fin m → ℚ) :
    lexNeg (List.ofFn f) = true ↔ toLex f < 0 := by
  rw [lexNeg_eq_lexLt, List.map_ofFn]
  exact lexLt_ofFn_iff f fun _ => 0

/-! ## The scan for a least key -/

/-- The scan has a result unless there is no candidate. -/
theorem lexLeast_eq_none_iff {α ι : Type} [Scalar α] (key : ι → List α) (candidates : List ι) :
    lexLeast key candidates = none ↔ candidates = [] := by
  have hsome : ∀ (is : List ι) (best : ι × List α),
      is.foldl (lexKeep key) (some best) ≠ none := by
    intro is
    induction is with
    | nil => intro best; simp
    | cons i is ih =>
      intro best
      rw [List.foldl_cons, lexKeep]
      split
      · exact ih _
      · exact ih _
  cases candidates with
  | nil => simp
  | cons i is =>
    simp only [reduceCtorEq, iff_false]
    exact hsome is (i, key i)

/-- What the scan makes of an incumbent: the winner is the incumbent or a candidate, and neither
the incumbent's key nor that of a candidate is smaller. -/
theorem foldl_lexKeep {ι : Type} {m : Nat} (v : ι → Fin m → ℚ) (candidates : List ι) (best : ι) :
    ∃ i, candidates.foldl (lexKeep fun j => List.ofFn (v j)) (some (best, List.ofFn (v best))) =
        some (i, List.ofFn (v i)) ∧ (i = best ∨ i ∈ candidates) ∧
      toLex (v i) ≤ toLex (v best) ∧ ∀ j ∈ candidates, toLex (v i) ≤ toLex (v j) := by
  induction candidates generalizing best with
  | nil => exact ⟨best, rfl, Or.inl rfl, le_rfl, by simp⟩
  | cons c cs ih =>
    by_cases hc : toLex (v c) < toLex (v best)
    · obtain ⟨i, hfold, hmem, hle, hall⟩ := ih c
      refine ⟨i, ?_, ?_, hle.trans hc.le, ?_⟩
      · rw [List.foldl_cons, lexKeep]
        simpa only [(lexLt_ofFn_iff _ _).2 hc, if_true] using hfold
      · exact Or.inr (List.mem_cons.2 hmem)
      · rintro j (_ | ⟨_, hj⟩)
        · exact hle
        · exact hall j hj
    · obtain ⟨i, hfold, hmem, hle, hall⟩ := ih best
      refine ⟨i, ?_, ?_, hle, ?_⟩
      · rw [List.foldl_cons, lexKeep]
        simpa only [mt (lexLt_ofFn_iff _ _).1 hc, Bool.false_eq_true, if_false] using hfold
      · exact hmem.imp_right (List.mem_cons_of_mem c)
      · rintro j (_ | ⟨_, hj⟩)
        · exact hle.trans (not_lt.1 hc)
        · exact hall j hj

/-- **The scan finds a minimum**, with its key. -/
theorem le_of_lexLeast_eq_some {ι : Type} {m : Nat} (v : ι → Fin m → ℚ) {candidates : List ι}
    {i : ι} {least : List ℚ}
    (h : lexLeast (fun j => List.ofFn (v j)) candidates = some (i, least)) :
    i ∈ candidates ∧ least = List.ofFn (v i) ∧ ∀ j ∈ candidates, toLex (v i) ≤ toLex (v j) := by
  cases candidates with
  | nil => simp at h
  | cons c cs =>
    obtain ⟨i', hfold, hmem, hle, hall⟩ := foldl_lexKeep v cs c
    obtain ⟨rfl, rfl⟩ : i' = i ∧ List.ofFn (v i') = least := by
      have heq : some (i', List.ofFn (v i')) = some (i, least) := hfold.symm.trans h
      simpa using heq
    refine ⟨List.mem_cons.2 hmem, rfl, ?_⟩
    rintro j (_ | ⟨_, hj⟩)
    · exact hle
    · exact hall j hj

/-- **The scan finds a strict minimum**: a candidate whose key is below all others. -/
theorem lexLeast_eq_some_of_lt {ι : Type} {m : Nat} (v : ι → Fin m → ℚ) {candidates : List ι}
    {i : ι} (hi : i ∈ candidates) (hlt : ∀ j ∈ candidates, j ≠ i → toLex (v i) < toLex (v j)) :
    lexLeast (fun j => List.ofFn (v j)) candidates = some (i, List.ofFn (v i)) := by
  cases h : lexLeast (fun j => List.ofFn (v j)) candidates with
  | none =>
    rw [(lexLeast_eq_none_iff _ _).1 h] at hi
    nomatch hi
  | some winner =>
    obtain ⟨k, least⟩ := winner
    obtain ⟨hk, rfl, hall⟩ := le_of_lexLeast_eq_some v h
    have hki : k = i := by
      by_contra hne
      exact (hall i hi).not_gt (hlt k hk hne)
    rw [hki]

/-- **The order of the scan does not matter** if the candidates have different keys. -/
theorem lexLeast_eq_of_perm {ι : Type} {m : Nat} (v : ι → Fin m → ℚ)
    {candidates candidates' : List ι} (hperm : candidates'.Perm candidates)
    (hv : ∀ i ∈ candidates, ∀ j ∈ candidates, v i = v j → i = j) :
    lexLeast (fun j => List.ofFn (v j)) candidates' =
      lexLeast (fun j => List.ofFn (v j)) candidates := by
  cases h : lexLeast (fun j => List.ofFn (v j)) candidates with
  | none => exact (lexLeast_eq_none_iff _ _).2 ((lexLeast_eq_none_iff _ _).1 h ▸ hperm).eq_nil
  | some winner =>
    obtain ⟨i, least⟩ := winner
    obtain ⟨hi, rfl, hall⟩ := le_of_lexLeast_eq_some v h
    refine lexLeast_eq_some_of_lt v (hperm.mem_iff.2 hi) fun j hj hne => ?_
    have hj := hperm.mem_iff.1 hj
    exact lt_of_le_of_ne (hall j hj) fun heq => hne (hv i hi j hj (toLex_inj.1 heq)).symm

end Complementarity
