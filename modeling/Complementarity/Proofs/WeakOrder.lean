import Mathlib.Data.Prod.Lex
import Mathlib.Data.Int.Order.Basic
import Mathlib.Data.Rat.Defs
import Mathlib.Algebra.Order.Ring.Unbundled.Rat
import Mathlib.Tactic.Common
import Complementarity.Scalar.Instances
import Complementarity.Proofs.Trace

/-!
# The order of finite scalars

The solver requires no laws of its scalars.  Which row comes first depends on the order of the
entries of `q` alone, and these are finite.  What finite numbers of every format have in common is a
strict weak order (`Scalar.WeakOrder`):  two of them may be neither smaller nor greater, as the two
zeros of a binary format are, but then they compare alike with every other one.

* **the three scalar types** — exact rationals are ordered linearly; finite binary numbers are
  ordered by sign, exponent and mantissa (`Binary.lt_iff_orderKey`);
* **the first row** — `Lcp.start?_eq_none_iff_of_finite`: a problem with finite entries is pivoted
  exactly if an entry of `q` is negative.
-/

namespace Complementarity

open Float.Model (UnpackedFloat)

/-! ## Strict weak orders -/

/-- The finite values have a strict weak order, in which zero is finite and below one. -/
class Scalar.WeakOrder (α : Type) [Scalar α] : Prop where
  isFinite_zero : Scalar.isFinite (0 : α) = true
  isFinite_one : Scalar.isFinite (1 : α) = true
  zero_lt_one : (0 : α) < 1
  asymm : ∀ {x y : α}, Scalar.isFinite x = true → Scalar.isFinite y = true → x < y → ¬ y < x
  /-- Values that are neither smaller nor greater compare alike with every other one. -/
  lt_or_lt : ∀ {x y z : α}, Scalar.isFinite x = true → Scalar.isFinite y = true →
    Scalar.isFinite z = true → x < z → x < y ∨ y < z

/-- Values that are ordered by a key in a linear order are weakly ordered. -/
theorem Scalar.WeakOrder.of_key {α κ : Type} [Scalar α] [LinearOrder κ] (key : α → κ)
    (hkey : ∀ {x y : α}, Scalar.isFinite x = true → Scalar.isFinite y = true →
      (x < y ↔ key x < key y))
    (hzero : Scalar.isFinite (0 : α) = true) (hone : Scalar.isFinite (1 : α) = true)
    (hlt : (0 : α) < 1) : Scalar.WeakOrder α where
  isFinite_zero := hzero
  isFinite_one := hone
  zero_lt_one := hlt
  asymm hx hy h := by
    rw [hkey hx hy] at h
    rw [hkey hy hx]
    exact h.asymm
  lt_or_lt hx hy hz h := by
    rw [hkey hx hz] at h
    rw [hkey hx hy, hkey hy hz]
    exact (lt_or_ge (key _) (key _)).imp_right fun hle => hle.trans_lt h

instance : Scalar.WeakOrder ℚ :=
  .of_key id (fun _ _ => Iff.rfl) rfl rfl (by decide)

/-! ## Binary numbers -/

namespace Binary

/-- What finite binary numbers are ordered by: the sign, the exponent and the mantissa.  The two
zeros have the same key. -/
def orderKey : UnpackedFloat → ℤ ×ₗ ℤ ×ₗ ℤ
  | .finite .positive mantissa exponent _ => toLex (1, toLex (exponent, (mantissa : ℤ)))
  | .finite .negative mantissa exponent _ => toLex (-1, toLex (-exponent, -(mantissa : ℤ)))
  | _ => toLex (0, toLex (0, 0))

/-- **The order of finite binary numbers.** -/
theorem lt_iff_orderKey {x y : UnpackedFloat} (hx : x.isFinite = true) (hy : y.isFinite = true) :
    x.lt y = true ↔ orderKey x < orderKey y := by
  cases x with
  | infinity s => nomatch hx
  | notANumber => nomatch hx
  | zero s =>
    cases y with
    | infinity s' => nomatch hy
    | notANumber => nomatch hy
    | zero s' =>
      dsimp only [UnpackedFloat.lt, UnpackedFloat.compare, orderKey]
      simp
    | finite s' m' e' _ =>
      cases s' <;> dsimp only [UnpackedFloat.lt, UnpackedFloat.compare, orderKey] <;>
        simp [Prod.Lex.toLex_lt_toLex]
  | finite s m e _ =>
    cases y with
    | infinity s' => nomatch hy
    | notANumber => nomatch hy
    | zero s' =>
      cases s <;> dsimp only [UnpackedFloat.lt, UnpackedFloat.compare, orderKey] <;>
        simp [Prod.Lex.toLex_lt_toLex]
    | finite s' m' e' _ =>
      cases s <;> cases s' <;>
        dsimp only [UnpackedFloat.lt, UnpackedFloat.compare, orderKey] <;>
        simp [Prod.Lex.toLex_lt_toLex, Ordering.then_eq_lt, Ordering.swap_then,
          Int.compare_eq_lt, Int.compare_eq_gt, Nat.compare_eq_lt, Nat.compare_eq_gt]

end Binary

instance : Scalar.WeakOrder Float :=
  .of_key (fun x => Binary.orderKey x.toModel.unpack)
    (fun {x y} hx hy => by
      have hlt : x < y ↔ x.toModel.unpack.lt y.toModel.unpack = true :=
        ⟨fun h => of_decide_eq_true h, fun h => decide_eq_true h⟩
      exact hlt.trans (Binary.lt_iff_orderKey hx hy))
    (by decide) (by decide) (by decide)

instance : Scalar.WeakOrder Float32 :=
  .of_key (fun x => Binary.orderKey x.toModel.unpack)
    (fun {x y} hx hy => by
      have hlt : x < y ↔ x.toModel.unpack.lt y.toModel.unpack = true :=
        ⟨fun h => of_decide_eq_true h, fun h => decide_eq_true h⟩
      exact hlt.trans (Binary.lt_iff_orderKey hx hy))
    (by decide) (by decide) (by decide)

/-! ## The least of several lists -/

section Least

variable {α : Type} [Scalar α]

/-- A list without negative entries is not negative. -/
theorem lexNeg_eq_false {xs : List α} (h : ∀ x ∈ xs, ¬ x < 0) : lexNeg xs = false := by
  induction xs with
  | nil => rfl
  | cons x xs ih =>
    rw [lexNeg, if_neg (h x List.mem_cons_self)]
    split
    · rfl
    · exact ih fun y hy => h y (List.mem_cons_of_mem x hy)

theorem not_lt_of_lexLt_eq_false {x y : α} {xs ys : List α}
    (h : lexLt (x :: xs) (y :: ys) = false) : ¬ x < y := by
  intro hlt
  rw [lexLt, if_pos hlt] at h
  exact Bool.false_ne_true h.symm

variable [Scalar.WeakOrder α]

theorem not_lt_of_lexLt {x y : α} {xs ys : List α} (hx : Scalar.isFinite x = true)
    (hy : Scalar.isFinite y = true) (h : lexLt (x :: xs) (y :: ys) = true) : ¬ y < x := by
  intro hlt
  rw [lexLt, if_neg (Scalar.WeakOrder.asymm hy hx hlt), if_pos hlt] at h
  exact Bool.false_ne_true h

/-- **A scan for the least list** ends with a list whose head no other head is below, if the heads
are finite.  By induction on the candidates, for every incumbent. -/
theorem foldl_lexKeep_head {ι : Type} (f : ι → α) (g : ι → List α)
    (hf : ∀ i, Scalar.isFinite (f i) = true) (candidates : List ι) (best : ι) :
    ∃ k, candidates.foldl (lexKeep fun i => f i :: g i) (some (best, f best :: g best)) =
        some (k, f k :: g k) ∧ ¬ f best < f k ∧ ∀ i ∈ candidates, ¬ f i < f k := by
  induction candidates generalizing best with
  | nil => exact ⟨best, rfl, fun h => Scalar.WeakOrder.asymm (hf _) (hf _) h h, nofun⟩
  | cons i rest ih =>
    cases hlt : lexLt (f i :: g i) (f best :: g best) with
    | true =>
      obtain ⟨k, hk, hi, hrest⟩ := ih i
      refine ⟨k, ?_, fun h => ?_, List.forall_mem_cons.2 ⟨hi, hrest⟩⟩
      · simpa only [List.foldl_cons, lexKeep, hlt, if_true] using hk
      · rcases Scalar.WeakOrder.lt_or_lt (hf best) (hf i) (hf k) h with hbest | hik
        · exact not_lt_of_lexLt (hf i) (hf best) hlt hbest
        · exact hi hik
    | false =>
      obtain ⟨k, hk, hbest, hrest⟩ := ih best
      refine ⟨k, ?_, hbest, List.forall_mem_cons.2 ⟨fun h => ?_, hrest⟩⟩
      · simpa only [List.foldl_cons, lexKeep, hlt, Bool.false_eq_true, if_false] using hk
      · rcases Scalar.WeakOrder.lt_or_lt (hf i) (hf best) (hf k) h with hi | hk
        · exact not_lt_of_lexLt_eq_false hlt hi
        · exact hbest hk

end Least

/-! ## The first row -/

section First

variable {α : Type} [Scalar α] {n : Nat} (p : Lcp α n)

/-- The polynomial of a row before the first pivot: the entry of `q`, and then zeros and a one. -/
theorem Lcp.polynomial_loaded (r : Fin n) :
    p.loaded.polynomial r =
      p.q.get r :: List.ofFn fun k : Fin n => if k.succ = r.succ then (1 : α) else 0 := by
  rw [Tableau.polynomial, List.ofFn_succ, p.entry_loaded, if_pos rfl]
  simp only [p.entry_loaded, Fin.succ_ne_zero, if_false]

variable [Scalar.WeakOrder α]

/-- The polynomial of a row before the first pivot is negative if the entry of `q` is. -/
theorem Lcp.lexNeg_polynomial_loaded (r : Fin n) :
    lexNeg (p.loaded.polynomial r) = decide (p.q.get r < 0) := by
  have hzero := Scalar.WeakOrder.isFinite_zero (α := α)
  have hrest : lexNeg (List.ofFn fun k : Fin n => if k.succ = r.succ then (1 : α) else 0) =
      false := by
    refine lexNeg_eq_false (List.forall_mem_ofFn_iff.2 fun k => ?_)
    split
    · exact Scalar.WeakOrder.asymm hzero Scalar.WeakOrder.isFinite_one
        Scalar.WeakOrder.zero_lt_one
    · exact fun h => Scalar.WeakOrder.asymm hzero hzero h h
  rw [polynomial_loaded, lexNeg]
  by_cases hneg : p.q.get r < 0
  · rw [if_pos hneg, decide_eq_true hneg]
  · rw [if_neg hneg, decide_eq_false hneg, hrest, ite_self]

/-- **The first row** has an entry of `q` that no other entry is below. -/
theorem Lcp.exists_lowestRow_loaded (hq : ∀ r, Scalar.isFinite (p.q.get r) = true) (hn : 0 < n) :
    ∃ row, p.loaded.lowestRow = some (row, p.loaded.polynomial row) ∧
      ∀ r, ¬ p.q.get r < p.q.get row := by
  cases hrows : List.finRange n with
  | nil => exact absurd (List.finRange_eq_nil_iff.1 hrows) hn.ne'
  | cons first rest =>
    obtain ⟨row, hrow, hfirst, hrest⟩ := foldl_lexKeep_head p.q.get
      (fun r => List.ofFn fun k : Fin n => if k.succ = r.succ then (1 : α) else 0) hq rest first
    refine ⟨row, ?_, fun r => ?_⟩
    · rw [Tableau.lowestRow, lexLeast, hrows, funext p.polynomial_loaded]
      exact hrow
    · have hr : r ∈ first :: rest := hrows ▸ List.mem_finRange r
      rcases List.mem_cons.1 hr with rfl | hr
      · exact hfirst
      · exact hrest r hr

/-- **No pivot is made** exactly if no entry of `q` is negative. -/
theorem Lcp.start?_eq_none_iff_of_finite (hq : ∀ r, Scalar.isFinite (p.q.get r) = true)
    (hn : 0 < n) : p.start? = none ↔ ∀ r, ¬ p.q.get r < 0 := by
  obtain ⟨row, hrow, hleast⟩ := p.exists_lowestRow_loaded hq hn
  rw [start?, hrow, Option.map_eq_none_iff, Option.filter_some, p.lexNeg_polynomial_loaded]
  by_cases hneg : p.q.get row < 0
  · rw [decide_eq_true hneg]
    exact iff_of_false (Option.some_ne_none _) fun h => h row hneg
  · rw [decide_eq_false hneg]
    refine ⟨fun _ r hr => ?_, fun _ => rfl⟩
    -- an entry below zero would be below the least one, or the least one below zero
    rcases Scalar.WeakOrder.lt_or_lt (hq r) (hq row) Scalar.WeakOrder.isFinite_zero hr with h | h
    · exact hleast r h
    · exact hneg h

end First

end Complementarity
