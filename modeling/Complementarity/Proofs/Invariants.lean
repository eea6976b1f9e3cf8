import Complementarity.Proofs.Solution

/-!
# What holds after every pivot

In exact arithmetic every state of a solve is valid (`State.Valid`).  Here that is spelled out on
the entries of the tableau:

* **the equations** — `Lcp.equations_of_states`: with numbers for the powers of the infinitesimal,
  the rows of the tableau have the same solutions as the augmented system of the problem;
* **positive rows** — the first nonzero coefficient of the polynomial of each row is positive, and
  there is one;
* **no ties** — two candidates of a ratio test never have the same ratio, so the row that blocks
  is the strict minimum, and the order in which the rows are scanned does not matter
  (`Lcp.IsDictionary.blockingRow_eq_of_perm`).  The same goes for the row in which the artificial
  variable enters (`Lcp.exists_strict_lowestRow`).

The last three come together in `Lcp.lexLt_ratio_of_states`.
-/

namespace Complementarity

open Tableau Variable

variable {n : Nat}

/-! ## The equations -/

/-- The polynomial of a row with numbers for the powers of the infinitesimal. -/
theorem Tableau.valueAt_cons (t : Tableau ℚ n) (ε : Fin n → ℚ) (r : Fin n) :
    t.valueAt (Fin.cons 1 ε : Fin (n + 1) → ℚ) r =
      t.constant r + ∑ k : Fin n, t.entry r (polynomialColumn k.succ) * ε k := by
  rw [valueAt, Fin.sum_univ_succ]
  simp only [Fin.cons_zero, Fin.cons_succ, smul_eq_mul, mul_one]
  rfl

/-- **The equations of every state.**  Whatever values the variables and the powers of the
infinitesimal have, they solve the augmented system exactly if they satisfy the rows of the tableau,
read with the bookkeeping of the state. -/
theorem Lcp.equations_of_states (p : Lcp ℚ n) (settings : Settings) (d : Diagnostics)
    (workspace : Tableau ℚ n) (buffer : Point ℚ n) :
    (p.run settings d workspace buffer).1.pivots =
        (p.states (settings.budget n)).map State.lastPivot ∧
      ∀ s ∈ p.states (settings.budget n), ∀ (x : Variable n → ℚ) (ε : Fin n → ℚ),
        (∀ i : Fin n, x (.w i.castSucc) =
          p.q.get i + ε i + ∑ j : Fin n, p.m.entry i j * x (.z j.castSucc) + x (artificial n)) ↔
        ∀ r, x (s.current.inRow r) =
          s.tableau.constant r + ∑ k : Fin n, s.tableau.entry r (polynomialColumn k.succ) * ε k +
            ∑ c, s.tableau.coefficient r c * x (s.current.inColumn c) := by
  refine ⟨p.pivots_run_eq settings d workspace buffer, fun s hs x ε => ?_⟩
  obtain ⟨first, hstart, hs⟩ := p.mem_states_iff.1 hs
  have hvalid := State.Valid.of_mem_trace hstart hs
  have hsystem : p.Augmented (Fin.cons 1 ε : Fin (n + 1) → ℚ) x ↔
      ∀ i : Fin n, x (.w i.castSucc) =
        p.q.get i + ε i + ∑ j : Fin n, p.m.entry i j * x (.z j.castSucc) + x (artificial n) := by
    refine Iff.trans ⟨Augmented.row, Augmented.mk⟩ (forall_congr' fun i => ?_)
    simp only [Fin.cons_zero, Fin.cons_succ, smul_eq_mul, mul_one]
  rw [← hsystem, ← hvalid.dictionary ℚ]
  refine forall_congr' fun r => ?_
  rw [valueAt_cons]
  rfl

theorem equations_of_states_tied :
    ∃ s ∈ tied.states 4, s.isReleased = true ∧ ∀ (x : Variable 2 → ℚ) (ε : Fin 2 → ℚ),
      (∀ i : Fin 2, x (.w i.castSucc) =
        tied.q.get i + ε i + ∑ j : Fin 2, tied.m.entry i j * x (.z j.castSucc) +
          x (artificial 2)) ↔
      ∀ r, x (s.current.inRow r) =
        s.tableau.constant r + ∑ k : Fin 2, s.tableau.entry r (polynomialColumn k.succ) * ε k +
          ∑ c, s.tableau.coefficient r c * x (s.current.inColumn c) := by
  have hreleased : ∃ s ∈ tied.states 4, s.isReleased = true := by decide +kernel
  obtain ⟨s, hs, hreleased⟩ := hreleased
  have hequations := tied.equations_of_states {} {} (Tableau.zero ℚ 2) (Point.zero ℚ 2)
  exact ⟨s, hs, hreleased, hequations.2 s hs⟩

/-! ## No ties -/

section Ties

variable {p : Lcp ℚ n} {t : Tableau ℚ n} {b : Basis n} {left : Fin (n + 1)}

/-- **The order of the rows does not matter** to the ratio test. -/
theorem Lcp.IsDictionary.blockingRow_eq_of_perm (h : p.IsDictionary t b) (hb : b.Arranged left)
    (d : Fin (n + 1)) {rows : List (Fin n)} (hrows : rows.Perm (List.finRange n)) :
    (lexLeast (t.ratio d) (rows.filter fun r => decide (t.coefficient r d < 0))).map Prod.fst =
      t.blockingRow d := by
  rw [blockingRow, funext (t.ratio_eq_ofFn d)]
  refine congrArg (Option.map Prod.fst) (lexLeast_eq_of_perm _ (hrows.filter _) ?_)
  intro r hr r' _ heq
  exact h.limit_injOn hb (of_decide_eq_true (List.mem_filter.1 hr).2) (ofLex_inj.1 heq)

end Ties

/-! ## Where a solve starts -/

section Start

variable (p : Lcp ℚ n)

/-- Before the first pivot a row without a negative constant has a positive polynomial. -/
theorem Lcp.value_loaded_pos {r : Fin n} (h : 0 ≤ p.q.get r) : 0 < p.loaded.value r := by
  rw [value_loaded]
  exact add_pos_of_nonneg_of_pos (smul_nonneg h (Perturbed.power_pos 0).le) (Perturbed.power_pos _)

/-- **No pivot is made** exactly if no constant is negative. -/
theorem Lcp.start?_eq_none_iff : p.start? = none ↔ ∀ r, 0 ≤ p.q.get r := by
  refine ⟨p.nonneg_of_start_eq_none, fun h => ?_⟩
  cases hstart : p.start? with
  | none => rfl
  | some s =>
    obtain ⟨row, -, hneg, -⟩ := le_of_start_eq_some hstart
    exact absurd hneg (p.value_loaded_pos (h row)).not_gt

/-- **The first row** is the one whose polynomial is below all others, and the order in which the
rows are scanned does not matter. -/
theorem Lcp.exists_strict_lowestRow {s : State ℚ n} (h : p.start? = some s) :
    ∃ row, s = State.start p.loaded row ∧ p.loaded.value row < 0 ∧
      (∀ r, r ≠ row → p.loaded.value row < p.loaded.value r) ∧
      ∀ rows : List (Fin n), rows.Perm (List.finRange n) →
        (lexLeast p.loaded.polynomial rows).map Prod.fst = some row := by
  obtain ⟨row, rfl, hneg, hle⟩ := le_of_start_eq_some h
  have hlt : ∀ r, r ≠ row → p.loaded.value row < p.loaded.value r := fun r hne =>
    lt_of_le_of_ne (hle r) (p.value_loaded_injective.ne hne.symm)
  refine ⟨row, rfl, hneg, hlt, fun rows hrows => congrArg (Option.map Prod.fst)
    (lexLeast_eq_some_of_lt (fun r => ofLex (p.loaded.value r)) ?_ fun r _ => hlt r)⟩
  exact hrows.mem_iff.2 (List.mem_finRange row)

end Start

/-- **Positive rows and no ties.**  A problem with a negative constant is pivoted.  The first row is
the strict minimum, in whatever order the rows are scanned.  In every state the first nonzero
coefficient of each row is positive; two candidates of the ratio test never have the same ratio, so
the blocking row is the candidate whose ratio precedes all others, in whatever order the rows are
scanned. -/
theorem Lcp.lexLt_ratio_of_states (p : Lcp ℚ n) (hq : ∃ i, p.q.get i < 0) (settings : Settings)
    (d : Diagnostics) (workspace : Tableau ℚ n) (buffer : Point ℚ n) :
    (p.run settings d workspace buffer).1.pivots =
        (p.states (settings.budget n)).map State.lastPivot ∧
      (∃ row, p.start? = some (State.start p.loaded row) ∧
        (∀ r, r ≠ row → lexLt (p.loaded.polynomial row) (p.loaded.polynomial r) = true) ∧
        ∀ rows : List (Fin n), rows.Perm (List.finRange n) →
          (lexLeast p.loaded.polynomial rows).map Prod.fst = some row) ∧
      ∀ s ∈ p.states (settings.budget n),
        (∀ r, ∃ k, 0 < s.tableau.entry r (polynomialColumn k) ∧
          ∀ j < k, s.tableau.entry r (polynomialColumn j) = 0) ∧
        (∀ r r', s.tableau.coefficient r s.driving < 0 → s.tableau.coefficient r' s.driving < 0 →
          r ≠ r' → s.tableau.ratio s.driving r ≠ s.tableau.ratio s.driving r') ∧
        (∀ row, s.tableau.blockingRow s.driving = some row ↔
          s.tableau.coefficient row s.driving < 0 ∧
            ∀ r, r ≠ row → s.tableau.coefficient r s.driving < 0 →
              lexLt (s.tableau.ratio s.driving row) (s.tableau.ratio s.driving r) = true) ∧
        ∀ rows : List (Fin n), rows.Perm (List.finRange n) →
          (lexLeast (s.tableau.ratio s.driving)
            (rows.filter fun r => decide (s.tableau.coefficient r s.driving < 0))).map Prod.fst =
          s.tableau.blockingRow s.driving := by
  refine ⟨p.pivots_run_eq settings d workspace buffer, ?_, fun s hs => ?_⟩
  · cases hstart : p.start? with
    | none =>
      obtain ⟨i, hi⟩ := hq
      exact absurd hi (p.start?_eq_none_iff.1 hstart i).not_gt
    | some s =>
      obtain ⟨row, rfl, -, hstrict, hscan⟩ := p.exists_strict_lowestRow hstart
      exact ⟨row, rfl, fun r hne => (lexLt_ofFn_iff _ _).2 (hstrict r hne), hscan⟩
  · obtain ⟨first, hstart, hs⟩ := p.mem_states_iff.1 hs
    have hvalid := State.Valid.of_mem_trace hstart hs
    refine ⟨fun r => Perturbed.exists_leading (hvalid.feasible r),
      fun r r' hr _ hne heq => hne ?_, fun row => ?_, fun rows hrows => ?_⟩
    · rw [ratio_eq_ofFn, ratio_eq_ofFn, List.ofFn_inj] at heq
      exact hvalid.dictionary.limit_injOn hvalid.arranged hr (ofLex_inj.1 heq)
    · simp only [ratio_eq_ofFn, lexLt_ofFn_iff]
      exact hvalid.dictionary.blockingRow_eq_some_iff hvalid.arranged
    · exact hvalid.dictionary.blockingRow_eq_of_perm hvalid.arranged s.driving hrows

theorem lexLt_ratio_of_states_tied :
    (∃ i, tied.q.get i < 0) ∧ ∃ s ∈ tied.states 4, s.tableau.blockingRow s.driving = some 1 ∧
      (∀ r, ∃ k, 0 < s.tableau.entry r (polynomialColumn k) ∧
        ∀ j < k, s.tableau.entry r (polynomialColumn j) = 0) ∧
      ∀ r, r ≠ 1 → s.tableau.coefficient r s.driving < 0 →
        lexLt (s.tableau.ratio s.driving 1) (s.tableau.ratio s.driving r) = true := by
  have hq : ∃ i, tied.q.get i < 0 := ⟨0, by decide +kernel⟩
  have hblocked : ∃ s ∈ tied.states 4, s.tableau.blockingRow s.driving = some 1 := by
    decide +kernel
  obtain ⟨s, hs, hblocked⟩ := hblocked
  obtain ⟨-, -, hstates⟩ :=
    tied.lexLt_ratio_of_states hq {} {} (Tableau.zero ℚ 2) (Point.zero ℚ 2)
  obtain ⟨hpositive, -, hrow, -⟩ := hstates s hs
  exact ⟨hq, s, hs, hblocked, hpositive, ((hrow 1).1 hblocked).2⟩

end Complementarity
