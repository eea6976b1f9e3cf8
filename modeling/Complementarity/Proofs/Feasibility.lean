import Complementarity.Proofs.Dictionary

/-!
# The ratio test keeps every perturbed constant positive

In exact arithmetic the perturbation removes all ties: the row that the ratio test picks is the
only one that attains the least ratio.  What is proved here:

* **the ratio test** — `blockingRow_eq_none_iff` and `le_of_blockingRow_eq_some`: the candidates
  are the rows with a negative entry in the driving column, and the row that is picked has the
  least ratio.  By `Lcp.IsDictionary.limit_injOn` no other candidate has the same one
  (`Lcp.IsDictionary.blockingRow_eq_some_iff`);
* **feasibility** — `feasible_pivot` and `feasible_start`: every perturbed constant stays
  positive;
* **what is true of every state of a run** — `Valid`, which a run from the first state keeps
  (`Valid.of_mem_trace`): the bookkeeping is in order, the tableau is a dictionary of the
  augmented system, and its perturbed constants are positive.
-/

namespace Complementarity

open Tableau Variable

variable {n : Nat}

/-! ## The ratio test -/

namespace Tableau

variable (t : Tableau ℚ n) (d : Fin (n + 1))

/-- All perturbed constants are positive. -/
def Feasible (t : Tableau ℚ n) : Prop := ∀ r, 0 < t.value r

/-- The perturbed value of the driving variable at which the variable of row `r` reaches zero. -/
def limit (r : Fin n) : Perturbed n := -(t.coefficient r d)⁻¹ • t.value r

theorem ratio_eq_ofFn (r : Fin n) : t.ratio d r = List.ofFn (ofLex (t.limit d r)) := by
  rw [ratio, scaledPolynomial, one_div]
  rfl

/-- Nothing blocks the driving variable exactly if its column has no negative entry. -/
theorem blockingRow_eq_none_iff : t.blockingRow d = none ↔ ∀ r, 0 ≤ t.coefficient r d := by
  rw [blockingRow, Option.map_eq_none_iff, lexLeast_eq_none_iff, List.filter_eq_nil_iff]
  simp only [List.mem_finRange, true_implies, decide_eq_true_eq]
  exact forall_congr' fun r => not_lt

/-- **The ratio test.**  The blocking row has a negative entry in the driving column, and among
these rows the least limit. -/
theorem le_of_blockingRow_eq_some {t : Tableau ℚ n} {d : Fin (n + 1)} {b : Fin n}
    (h : t.blockingRow d = some b) :
    t.coefficient b d < 0 ∧ ∀ r, t.coefficient r d < 0 → t.limit d b ≤ t.limit d r := by
  obtain ⟨⟨row, least⟩, hleast, rfl⟩ := Option.map_eq_some_iff.1 h
  rw [funext (t.ratio_eq_ofFn d)] at hleast
  obtain ⟨hmem, -, hall⟩ := le_of_lexLeast_eq_some (fun r => ofLex (t.limit d r)) hleast
  simp only [List.mem_filter, List.mem_finRange, true_and, decide_eq_true_eq] at hmem hall
  exact ⟨hmem, hall⟩

/-- A candidate whose limit is below all others blocks. -/
theorem blockingRow_eq_some_of_lt {t : Tableau ℚ n} {d : Fin (n + 1)} {b : Fin n}
    (hneg : t.coefficient b d < 0)
    (hlt : ∀ r, r ≠ b → t.coefficient r d < 0 → t.limit d b < t.limit d r) :
    t.blockingRow d = some b := by
  rw [blockingRow, funext (t.ratio_eq_ofFn d)]
  refine congrArg (Option.map Prod.fst)
    (lexLeast_eq_some_of_lt (fun r => ofLex (t.limit d r)) ?_ fun r hr hne => ?_)
  · exact List.mem_filter.2 ⟨List.mem_finRange b, decide_eq_true hneg⟩
  · exact hlt r hne (of_decide_eq_true (List.mem_filter.1 hr).2)

end Tableau

/-! ## Feasibility -/

section Feasibility

variable {p : Lcp ℚ n} {t : Tableau ℚ n} {b : Basis n} {left : Fin (n + 1)}

/-- **No ties.**  Two candidates of a ratio test have different limits. -/
theorem Lcp.IsDictionary.limit_injOn (h : p.IsDictionary t b) (hb : b.Arranged left)
    {d : Fin (n + 1)} {r r' : Fin n} (hr : t.coefficient r d < 0)
    (heq : t.limit d r = t.limit d r') : r = r' := by
  by_contra hne
  exact h.smul_value_ne hb hne (neg_ne_zero.2 (inv_ne_zero hr.ne)) _ heq

/-- **The blocking row** is the candidate whose limit is below all others. -/
theorem Lcp.IsDictionary.blockingRow_eq_some_iff (h : p.IsDictionary t b) (hb : b.Arranged left)
    {d : Fin (n + 1)} {row : Fin n} :
    t.blockingRow d = some row ↔ t.coefficient row d < 0 ∧
      ∀ r, r ≠ row → t.coefficient r d < 0 → t.limit d row < t.limit d r := by
  refine ⟨fun hrow => ?_, fun ⟨hneg, hlt⟩ => blockingRow_eq_some_of_lt hneg hlt⟩
  obtain ⟨hneg, hle⟩ := le_of_blockingRow_eq_some hrow
  exact ⟨hneg, fun r hne hr =>
    lt_of_le_of_ne (hle r hr) fun heq => hne (h.limit_injOn hb hneg heq).symm⟩

/-- **A pivot in the blocking row keeps the perturbed constants positive.** -/
theorem Lcp.IsDictionary.feasible_pivot (h : p.IsDictionary t b) (hb : b.Arranged left)
    (hfeasible : t.Feasible) {row : Fin n} {d : Fin (n + 1)} (hrow : t.blockingRow d = some row) :
    (t.pivot row (coefficientColumn d)).Feasible := by
  obtain ⟨hneg, hlt⟩ := (h.blockingRow_eq_some_iff hb).1 hrow
  intro r
  rw [value_pivot]
  by_cases hr : r = row
  · rw [if_pos hr]
    exact smul_pos (neg_pos.2 (inv_lt_zero.2 hneg)) (hfeasible row)
  · rw [if_neg hr]
    by_cases hcoefficient : t.coefficient r d < 0
    · -- the limit of this row is another one, so it is greater
      have hscaled := smul_lt_smul_of_pos_left (hlt r hr hcoefficient) (neg_pos.2 hcoefficient)
      rw [limit, limit, smul_smul, smul_smul, neg_mul_neg, neg_mul_neg,
        mul_inv_cancel₀ hcoefficient.ne, one_smul] at hscaled
      exact sub_pos.2 hscaled
    · have hfactor : 0 ≤ -(t.coefficient r d * (t.coefficient row d)⁻¹) := by
        rw [neg_nonneg]
        exact mul_nonpos_of_nonneg_of_nonpos (not_lt.1 hcoefficient) (inv_lt_zero.2 hneg).le
      rw [sub_eq_add_neg, ← neg_smul]
      exact add_pos_of_pos_of_nonneg (hfeasible r) (smul_nonneg hfactor (hfeasible row).le)

/-- The row in which the artificial variable enters has the least perturbed constant, which is
negative. -/
theorem Lcp.le_of_start_eq_some {s : State ℚ n} (h : p.start? = some s) :
    ∃ row, s = State.start p.loaded row ∧ p.loaded.value row < 0 ∧
      ∀ r, p.loaded.value row ≤ p.loaded.value r := by
  obtain ⟨⟨row, least⟩, hlowest, rfl⟩ := Option.map_eq_some_iff.1 h
  obtain ⟨hlowest, hneg⟩ := Option.filter_eq_some_iff.1 hlowest
  obtain ⟨-, rfl, hall⟩ := le_of_lexLeast_eq_some (fun r => ofLex (p.loaded.value r)) hlowest
  exact ⟨row, rfl, (lexNeg_ofFn_iff _).1 hneg, fun r => hall r (List.mem_finRange r)⟩

/-- The artificial variable enters in a row with a negative perturbed constant that is below all
others. -/
theorem Lcp.start?_eq_some_of_lt {row : Fin n} (hneg : p.loaded.value row < 0)
    (hlt : ∀ r, r ≠ row → p.loaded.value row < p.loaded.value r) :
    p.start? = some (State.start p.loaded row) := by
  have hlowest : p.loaded.lowestRow = some (row, p.loaded.polynomial row) :=
    lexLeast_eq_some_of_lt (fun r => ofLex (p.loaded.value r)) (List.mem_finRange row)
      fun r _ => hlt r
  have hlexNeg : lexNeg (p.loaded.polynomial row) = true := (lexNeg_ofFn_iff _).2 hneg
  rw [start?, hlowest, Option.filter_some, if_pos hlexNeg, Option.map_some]

/-- Before the first pivot no two rows have the same perturbed constant. -/
theorem Lcp.value_loaded_injective (p : Lcp ℚ n) : Function.Injective p.loaded.value := by
  intro r r' heq
  by_contra hne
  refine p.isDictionary_initial.smul_value_ne Basis.arranged_initial hne one_ne_zero 1 ?_
  rw [heq]

/-- If no pivot is made, no constant is negative. -/
theorem Lcp.nonneg_of_start_eq_none (h : p.start? = none) (r : Fin n) : 0 ≤ p.q.get r := by
  have hvalue : 0 ≤ p.loaded.value r := by
    rw [start?, Option.map_eq_none_iff, Option.filter_eq_none_iff] at h
    cases hlowest : p.loaded.lowestRow with
    | none =>
      have hnil := (lexLeast_eq_none_iff _ _).1 hlowest
      exact absurd (hnil ▸ List.mem_finRange r) List.not_mem_nil
    | some lowest =>
      obtain ⟨row, least⟩ := lowest
      have hneg := h _ hlowest
      obtain ⟨-, rfl, hall⟩ := le_of_lexLeast_eq_some (fun r => ofLex (p.loaded.value r)) hlowest
      have hleast : 0 ≤ p.loaded.value row := not_lt.1 (mt (lexNeg_ofFn_iff _).2 hneg)
      exact hleast.trans (hall r (List.mem_finRange r))
  rw [← p.constant_value_loaded r]
  exact Perturbed.constant_nonneg hvalue

/-- **The first pivot makes the perturbed constants positive.** -/
theorem Lcp.feasible_start {s : State ℚ n} (h : p.start? = some s) : s.tableau.Feasible := by
  obtain ⟨row, rfl, hneg, hle⟩ := le_of_start_eq_some h
  intro r
  have hone : ∀ r, p.loaded.entry r artificialColumn = 1 := p.coefficient_loaded_last
  rw [State.start, enterArtificial_eq_pivot _ _ hone]
  refine (value_pivot p.loaded row r (Fin.last n)).symm ▸ ?_
  simp only [coefficient_loaded_last, inv_one, mul_one, one_smul, neg_smul]
  by_cases hr : r = row
  · rw [if_pos hr]
    exact neg_pos.2 hneg
  · rw [if_neg hr]
    have hne : p.loaded.value row ≠ p.loaded.value r := p.value_loaded_injective.ne (Ne.symm hr)
    exact sub_pos.2 (lt_of_le_of_ne (hle r) hne)

end Feasibility

/-! ## What is true of every state of a run -/

namespace State

variable {p : Lcp ℚ n} {s t : State ℚ n}

/-- What is true of every state of a run in exact arithmetic. -/
structure Valid (p : Lcp ℚ n) (s : State ℚ n) : Prop extends s.Bookkept where
  dictionary : p.IsDictionary s.tableau s.current
  feasible : s.tableau.Feasible

theorem valid_of_start (h : p.start? = some s) : s.Valid p := by
  refine ⟨?_, ?_, Lcp.feasible_start h⟩
  · obtain ⟨row, rfl, -⟩ := Lcp.le_of_start_eq_some h
    exact bookkept_start _ row
  · obtain ⟨row, rfl, -⟩ := Lcp.le_of_start_eq_some h
    exact Lcp.IsDictionary.enterArtificial row

/-- **The step.**  A pivot leads from a valid state to a valid state. -/
theorem Valid.step (h : s.Valid p) (hstep : s.step = .pivoted t) : t.Valid p := by
  obtain ⟨hreleased, row, hrow, rfl⟩ := step_eq_pivoted_iff.1 hstep
  have hneg := (le_of_blockingRow_eq_some hrow).1
  exact ⟨h.toBookkept.pivotAt hreleased row, h.dictionary.pivot hneg.ne,
    h.dictionary.feasible_pivot h.arranged h.feasible hrow⟩

/-- **The run.**  Every state of a run from the first state is valid. -/
theorem Valid.of_mem_trace (hstart : p.start? = some s) {budget : Nat}
    (ht : t ∈ s.trace budget) : t.Valid p :=
  forall_mem_trace (fun _ _ => Valid.step) (valid_of_start hstart) budget t ht

end State

end Complementarity
