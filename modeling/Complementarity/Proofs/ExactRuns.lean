import Mathlib
import Complementarity.Proofs.ExactOperations
import Complementarity.Proofs.Simulation
import Complementarity.Proofs.Sizes

/-!
# Runs that binary64 numbers make exactly

A binary64 solve rounds after every operation, and in general it takes another course than the
exact solve of the same data.  As long as every number that the exact solve computes is a binary64
number, nothing is rounded, and the two run side by side.

* **what a solve computes** — `State.computed`, `Lcp.computed`: reciprocals, products, differences
  and scaled polynomials, for every kind of scalar;
* **comparisons** — `lexLt_of_represents`, `lexNeg_of_represents`: lists of binary64 numbers compare
  as the lists of their values, zeros of either sign included;
* **the step** — `Tableau.Represents.pivot`: entry by entry, where rows with a zero are skipped on
  both sides;
* **the run** — `Lcp.simulation_exact`;
* **the result** — `Solver.solve_exact`: the same status, counts and pivots, and the same values.
-/

namespace Complementarity

open Tableau Binary

variable {n : Nat}

/-! ## What a solve computes -/

section Computed

variable {α : Type} [Scalar α]

/-- The numbers that a ratio test computes: for each row with a negative coefficient its
reciprocal, the negation of this and the scaled polynomial. -/
def Tableau.ratioValues (t : Tableau α n) (d : Fin (n + 1)) : List α :=
  ((List.finRange n).filter fun r => decide (t.coefficient r d < 0)).flatMap fun r =>
    1 / t.coefficient r d :: -(1 / t.coefficient r d) :: t.ratio d r

/-- The products that a pivot negates or subtracts. -/
def Tableau.pivotProducts (t : Tableau α n) (b : Fin n) (d : Fin (2 * n + 2)) : List α :=
  (List.finRange n).flatMap fun r =>
    if r ≠ b ∧ Scalar.isZero (t.entry r d) = true then []
    else
      ((List.finRange (2 * n + 2)).filter fun c => decide (c ≠ d)).map fun c =>
        t.entry b c * if r = b then 1 / t.entry b d else t.entry r d * (1 / t.entry b d)

/-- The numbers that a pivot computes: the products and the new entries, which are the reciprocal,
the multipliers, the negated products and the differences. -/
def Tableau.pivotValues (t : Tableau α n) (b : Fin n) (d : Fin (2 * n + 2)) : List α :=
  t.pivotProducts b d ++ (t.pivot b d).entries

/-- The numbers that a run computes from a state on. -/
def State.computed : Nat → State α n → List α
  | 0, _ => []
  | budget + 1, s =>
    if s.isReleased then []
    else
      s.tableau.ratioValues s.driving ++
        match s.tableau.blockingRow s.driving with
        | none => []
        | some row =>
          s.tableau.pivotValues row (coefficientColumn s.driving) ++
            computed budget (s.pivotAt row)

/-- The numbers that a solve computes, from the first pivot on. -/
def Lcp.computed (p : Lcp α n) (budget : Nat) : List α :=
  p.start?.elim [] fun s => s.tableau.entries ++ s.computed budget

variable {t : Tableau α n}

theorem Tableau.mem_ratioValues {d : Fin (n + 1)} {r : Fin n} (h : t.coefficient r d < 0) {v : α}
    (hv : v ∈ 1 / t.coefficient r d :: -(1 / t.coefficient r d) :: t.ratio d r) :
    v ∈ t.ratioValues d :=
  List.mem_flatMap.2 ⟨r, List.mem_filter.2 ⟨List.mem_finRange r, decide_eq_true h⟩, hv⟩

theorem Tableau.mem_pivotProducts_row {b : Fin n} {d c : Fin (2 * n + 2)} (hc : c ≠ d) :
    t.entry b c * (1 / t.entry b d) ∈ t.pivotProducts b d := by
  refine List.mem_flatMap.2 ⟨b, List.mem_finRange b, ?_⟩
  rw [if_neg fun h => h.1 rfl]
  refine List.mem_map.2 ⟨c, List.mem_filter.2 ⟨List.mem_finRange c, decide_eq_true hc⟩, ?_⟩
  rw [if_pos rfl]

theorem Tableau.mem_pivotProducts {b r : Fin n} {d c : Fin (2 * n + 2)} (hr : r ≠ b)
    (hzero : ¬ Scalar.isZero (t.entry r d) = true) (hc : c ≠ d) :
    t.entry b c * (t.entry r d * (1 / t.entry b d)) ∈ t.pivotProducts b d := by
  refine List.mem_flatMap.2 ⟨r, List.mem_finRange r, ?_⟩
  rw [if_neg fun h => hzero h.2]
  refine List.mem_map.2 ⟨c, List.mem_filter.2 ⟨List.mem_finRange c, decide_eq_true hc⟩, ?_⟩
  rw [if_neg hr]

theorem State.computed_succ {s : State α n} (hreleased : s.isReleased = false) (budget : Nat) :
    s.computed (budget + 1) = s.tableau.ratioValues s.driving ++
      (s.tableau.blockingRow s.driving).elim [] fun row =>
        s.tableau.pivotValues row (coefficientColumn s.driving) ++
          (s.pivotAt row).computed budget := by
  rw [computed, hreleased, if_neg Bool.false_ne_true]
  cases s.tableau.blockingRow s.driving <;> rfl

end Computed

/-! ## Comparisons -/

/-- The list has the values of the other list. -/
abbrev ListRepresents (xs : List Float) (as : List ℚ) : Prop :=
  List.Forall₂ (fun x a => ratOfDouble? x = some a) xs as

/-- **Comparisons decide alike.** -/
theorem lexLt_of_represents {xs ys : List Float} {as bs : List ℚ} (hx : ListRepresents xs as)
    (hy : ListRepresents ys bs) : lexLt xs ys = lexLt as bs := by
  induction hx generalizing ys bs with
  | nil => rfl
  | @cons x a xs as hxa _ ih =>
    cases hy with
    | nil => rfl
    | @cons y b ys bs hyb hrest =>
      simp only [lexLt, lt_iff_of_ratOfDouble? hxa hyb, lt_iff_of_ratOfDouble? hyb hxa, ih hrest]

theorem lexNeg_of_represents {xs : List Float} {as : List ℚ} (hx : ListRepresents xs as) :
    lexNeg xs = lexNeg as := by
  induction hx with
  | nil => rfl
  | @cons x a xs as hxa _ ih =>
    simp only [lexNeg, lt_iff_of_ratOfDouble? hxa ratOfDouble?_zero,
      lt_iff_of_ratOfDouble? ratOfDouble?_zero hxa, ih]

/-- Lists of as many numbers represent each other if their entries do. -/
theorem listRepresents_ofFn {m : Nat} {f : Fin m → Float} {g : Fin m → ℚ}
    (h : ∀ i, ratOfDouble? (f i) = some (g i)) :
    ListRepresents (List.ofFn f) (List.ofFn g) := by
  refine List.forall₂_iff_get.2 ⟨by simp, fun i hi hi' => ?_⟩
  simpa using h ⟨i, by simpa using hi⟩

/-! ## The step -/

namespace Tableau

/-- The entries of the first tableau have the values of the entries of the second. -/
def Represents (x : Tableau Float n) (t : Tableau ℚ n) : Prop :=
  ∀ r c, ratOfDouble? (x.entry r c) = some (t.entry r c)

namespace Represents

variable {x : Tableau Float n} {t : Tableau ℚ n} (h : x.Represents t)

include h

theorem polynomial (r : Fin n) : ListRepresents (x.polynomial r) (t.polynomial r) :=
  listRepresents_ofFn fun k => h r (polynomialColumn k)

theorem coefficient_neg_iff (r : Fin n) (d : Fin (n + 1)) :
    x.coefficient r d < 0 ↔ t.coefficient r d < 0 :=
  lt_iff_of_ratOfDouble? (h r (coefficientColumn d)) ratOfDouble?_zero

theorem isZero_eq (r : Fin n) (c : Fin (2 * n + 2)) :
    Scalar.isZero (x.entry r c) = Scalar.isZero (t.entry r c) :=
  isZero_of_ratOfDouble? (h r c)

theorem one_div {r : Fin n} {c : Fin (2 * n + 2)} (hne : t.entry r c ≠ 0)
    (hexact : IsDouble (1 / t.entry r c)) :
    ratOfDouble? (1 / x.entry r c) = some (1 / t.entry r c) :=
  ratOfDouble?_div ratOfDouble?_one (h r c) hne hexact

/-- The ratios of a row with a negative coefficient. -/
theorem ratio {d : Fin (n + 1)} (hexact : ∀ v ∈ t.ratioValues d, IsDouble v) {r : Fin n}
    (hneg : t.coefficient r d < 0) : ListRepresents (x.ratio d r) (t.ratio d r) := by
  have hvalues := fun v hv => hexact v (mem_ratioValues hneg hv)
  have hreciprocal := h.one_div hneg.ne (hvalues _ List.mem_cons_self)
  have hfactor := ratOfDouble?_neg hreciprocal
    (hvalues _ (List.mem_cons_of_mem _ List.mem_cons_self))
  refine listRepresents_ofFn fun k => ratOfDouble?_mul hfactor (h r (polynomialColumn k)) ?_
  refine hvalues _ (List.mem_cons_of_mem _ (List.mem_cons_of_mem _ ?_))
  exact List.mem_ofFn.2 ⟨k, rfl⟩

/-- **The same row blocks** if the numbers that the ratio test computes are binary64 numbers. -/
theorem blockingRow_eq {d : Fin (n + 1)} (hexact : ∀ v ∈ t.ratioValues d, IsDouble v) :
    x.blockingRow d = t.blockingRow d :=
  blockingRow_eq_of_alongside (fun r => h.coefficient_neg_iff r d) fun _ _ hr hr' =>
    lexLt_of_represents (h.ratio hexact hr) (h.ratio hexact hr')

/-- **A pivot** whose numbers are binary64 numbers. -/
theorem pivot {b : Fin n} {d : Fin (2 * n + 2)} (hne : t.entry b d ≠ 0)
    (hexact : ∀ v ∈ t.pivotValues b d, IsDouble v) : (x.pivot b d).Represents (t.pivot b d) := by
  have hproduct : ∀ v ∈ t.pivotProducts b d, IsDouble v := fun v hv =>
    hexact v (List.mem_append_left _ hv)
  have hentry : ∀ r c, IsDouble ((t.pivot b d).entry r c) := fun r c =>
    hexact _ (List.mem_append_right _ (mem_entries_iff.2 ⟨r, c, rfl⟩))
  have hreciprocal : ratOfDouble? (1 / x.entry b d) = some (1 / t.entry b d) := by
    refine h.one_div hne ?_
    have hnew := hentry b d
    rwa [entry_pivot, if_pos rfl, if_pos rfl] at hnew
  intro r c
  have hnew := hentry r c
  rw [entry_pivot] at hnew ⊢
  rw [entry_pivot, h.isZero_eq]
  by_cases hr : r = b
  · subst hr
    simp only [if_true] at hnew ⊢
    by_cases hc : c = d
    · simp only [if_pos hc]
      exact hreciprocal
    · simp only [if_neg hc] at hnew ⊢
      exact ratOfDouble?_neg
        (ratOfDouble?_mul (h r c) hreciprocal (hproduct _ (mem_pivotProducts_row hc))) hnew
  · simp only [if_neg hr] at hnew ⊢
    by_cases hzero : Scalar.isZero (t.entry r d) = true
    · simp only [if_pos hzero]
      exact h r c
    · simp only [if_neg hzero] at hnew ⊢
      -- the multiplier is the new entry of the driving column
      have hmultiplier : ratOfDouble? (x.entry r d * (1 / x.entry b d)) =
          some (t.entry r d * (1 / t.entry b d)) := by
        refine ratOfDouble?_mul (h r d) hreciprocal ?_
        have hcolumn := hentry r d
        rwa [entry_pivot, if_neg hr, if_neg hzero, if_pos rfl] at hcolumn
      by_cases hc : c = d
      · simp only [if_pos hc]
        exact hmultiplier
      · simp only [if_neg hc] at hnew ⊢
        exact ratOfDouble?_sub (h r c)
          (ratOfDouble?_mul (h b c) hmultiplier (hproduct _ (mem_pivotProducts hr hzero hc))) hnew

/-- **The first pivot**, if its entries are binary64 numbers. -/
theorem enterArtificial {b : Fin n} (hexact : ∀ v ∈ (t.enterArtificial b).entries, IsDouble v) :
    (x.enterArtificial b).Represents (t.enterArtificial b) := by
  intro r c
  have hnew := hexact _ (mem_entries_iff.2 ⟨r, c, rfl⟩)
  rw [entry_enterArtificial] at hnew ⊢
  rw [entry_enterArtificial]
  by_cases hc : c = artificialColumn
  · simp only [if_pos hc]
    exact h r c
  · simp only [if_neg hc] at hnew ⊢
    by_cases hr : r = b
    · simp only [if_pos hr] at hnew ⊢
      exact ratOfDouble?_neg (h b c) hnew
    · simp only [if_neg hr] at hnew ⊢
      exact ratOfDouble?_sub (h r c) (h b c) hnew

theorem overflowingRow_eq_none : x.overflowingRow = none :=
  overflowingRow_eq_none_iff.2 fun r => isFinite_iff_ratOfDouble?.2 ⟨_, h r (polynomialColumn 0)⟩

end Represents

end Tableau

/-! ## The run -/

namespace Lcp

/-- The exact values of the data of a problem. -/
def exact (p : Lcp Float n) : Lcp ℚ n where
  q := Vector.ofFn fun i => (ratOfDouble? (p.q.get i)).getD 0
  m := Dense.ofFn fun i j => (ratOfDouble? (p.m.entry i j)).getD 0

/-- The relation between the exact states and the states of a solve in binary64. -/
def ExactState (budget : Nat) (s : State ℚ n) (t : State Float n) : Prop :=
  s.SamePlace t ∧ t.tableau.Represents s.tableau ∧ ∀ v ∈ s.computed budget, IsDouble v

theorem simulation_exact : Simulation (ExactState (n := n)) where
  samePlace h := h.1
  blockingRow := by
    rintro budget s t ⟨-, hrepresents, hexact⟩ hreleased
    rw [State.computed_succ hreleased] at hexact
    exact hrepresents.blockingRow_eq fun v hv => hexact v (List.mem_append_left _ hv)
  pivotAt := by
    rintro budget s t row ⟨hplace, hrepresents, hexact⟩ hreleased hrow
    rw [State.computed_succ hreleased, hrow, Option.elim_some] at hexact
    have hpivot := fun v hv => hexact v (List.mem_append_right _ hv)
    refine ⟨hplace.pivotAt row, ?_, fun v hv => hpivot v (List.mem_append_right _ hv)⟩
    rw [State.pivotAt, State.pivotAt, hplace.driving]
    exact hrepresents.pivot (le_of_blockingRow_eq_some hrow).1.ne
      fun v hv => hpivot v (List.mem_append_left _ hv)
  overflowingRow := by
    rintro budget s t ⟨-, hrepresents, -⟩ -
    rw [hrepresents.overflowingRow_eq_none, overflowingRow_eq_none_iff.2 fun _ => rfl]

variable {p : Lcp Float n}

theorem get_q_exact {i : Fin n} (h : (p.q.get i).isFinite = true) :
    ratOfDouble? (p.q.get i) = some (p.exact.q.get i) := by
  obtain ⟨a, ha⟩ := isFinite_iff_ratOfDouble?.1 h
  rw [exact, vector_get_ofFn, ha, Option.getD_some]

theorem entry_m_exact {i j : Fin n} (h : (p.m.entry i j).isFinite = true) :
    ratOfDouble? (p.m.entry i j) = some (p.exact.m.entry i j) := by
  obtain ⟨a, ha⟩ := isFinite_iff_ratOfDouble?.1 h
  rw [exact, Dense.entry_ofFn, ha, Option.getD_some]

section Finite

variable (hq : ∀ i, (p.q.get i).isFinite = true) (hm : ∀ i j, (p.m.entry i j).isFinite = true)

include hq hm

theorem represents_loaded : p.loaded.Represents p.exact.loaded := by
  intro r c
  rw [loaded, loaded, entry_withMatrix, entry_withMatrix]
  by_cases hmatrix : c.val < n
  · rw [dif_pos hmatrix, dif_pos hmatrix]
    exact entry_m_exact (hm r _)
  · rw [dif_neg hmatrix, dif_neg hmatrix]
    by_cases hone : c.val = n
    · rw [if_pos hone, if_pos hone]
      exact ratOfDouble?_one
    · have hpolynomial : ¬ c.val ≤ n := by omega
      rw [if_neg hone, if_neg hone, entry_withPerturbation, entry_withPerturbation,
        if_neg hpolynomial, if_neg hpolynomial]
      by_cases hconstant : c.val = n + 1
      · rw [if_pos hconstant, if_pos hconstant]
        exact get_q_exact (hq r)
      · rw [if_neg hconstant, if_neg hconstant]
        by_cases hpower : c.val = n + 2 + r.val
        · rw [if_pos hpower, if_pos hpower]
          exact ratOfDouble?_one
        · rw [if_neg hpower, if_neg hpower]
          exact ratOfDouble?_zero

theorem startAlongside_exact {budget : Nat}
    (hexact : ∀ v ∈ p.exact.computed budget, IsDouble v) :
    p.exact.StartAlongside ExactState budget p := by
  have hloaded := represents_loaded hq hm
  rcases start?_alongside
      (fun r r' => lexLt_of_represents (hloaded.polynomial r) (hloaded.polynomial r'))
      (fun r => lexNeg_of_represents (hloaded.polynomial r)) with
    ⟨hstart, hstart'⟩ | ⟨row, hstart, hstart'⟩
  · exact .trivial hstart hstart'
  · rw [computed, hstart, Option.elim_some] at hexact
    exact .pivoted _ _ hstart hstart' ⟨State.SamePlace.start _ _ row,
      hloaded.enterArtificial fun v hv => hexact v (List.mem_append_left _ hv),
      fun v hv => hexact v (List.mem_append_right _ hv)⟩

end Finite

end Lcp

/-! ## The result -/

/-- **Exact runs in binary64.**  Take finite data and the exact solve of their values.  If every
number that the exact solve computes is a binary64 number, a binary64 solve with the same settings
has the same status, counts as many iterations and pivots, makes the same pivots and returns the
same values.  Settings that allow no iteration are refused in both cases. -/
theorem Solver.solve_exact (p : Lcp Float n) (hn : 0 < n)
    (hq : ∀ i, (p.q.get i).isFinite = true) (hm : ∀ i j, (p.m.entry i j).isFinite = true)
    (s : Solver Float) (s' : Solver ℚ) (hs : s'.settings = s.settings)
    (hexact : ∀ v ∈ p.exact.computed (s.settings.budget n), IsDouble v) :
    (s.settings.isUsable = true → ∃ o o', (s.solveSized p).1 = .ok o ∧
      (s'.solveSized p.exact).1 = .ok o' ∧ o.course = o'.course ∧
      ∀ i, ratOfDouble? (o.point.w.get i) = some (o'.point.w.get i) ∧
        ratOfDouble? (o.point.z.get i) = some (o'.point.z.get i)) ∧
    (s.settings.isUsable = false → (s.solveSized p).1 = .error .noIterations ∧
      (s'.solveSized p.exact).1 = .error .noIterations) := by
  have hfault : p.fault? = none := Lcp.fault?_eq_none_iff.2 ⟨hn, hq, hm⟩
  have hstart := Lcp.startAlongside_exact hq hm hexact
  refine ⟨fun husable => ?_, fun hrefused => ?_⟩
  · refine ⟨_, _, solveInto_of_refusal_eq_none (Lcp.refusal?_eq_none_iff.2 ⟨hfault, husable⟩) _,
      s'.solveSized_fst p.exact hn (hs ▸ husable), ?_, fun i => ?_⟩
    · rw [hs]
      exact Lcp.simulation_exact.course_run hstart _ _ _ _ _ _
    · rw [hs]
      exact Lcp.simulation_exact.point_run hstart _ _ _ _ _ _
        (C := fun _ a x => ratOfDouble? x = some a) (fun _ => ratOfDouble?_zero)
        (fun i => Lcp.get_q_exact (hq i)) (fun h r => h.2.1 r (polynomialColumn 0)) i
  · exact ⟨solveSized_of_isUsable_eq_false hfault hrefused,
      solveSized_of_isUsable_eq_false (p.exact.fault?_eq_none hn) (hs ▸ hrefused)⟩

/-- Data that a solve pivots without rounding, past a zero that it skips. -/
def dyadic : Lcp Float 2 :=
  ⟨#v[-1, -1.5], Dense.ofFn fun i j => if i = j then 2 else if j < i then 4 else 0⟩

theorem solve_exact_dyadic :
    (0 < 2 ∧ (∀ i, (dyadic.q.get i).isFinite = true) ∧
      (∀ i j, (dyadic.m.entry i j).isFinite = true) ∧
        ∀ v ∈ dyadic.exact.computed 4, IsDouble v) ∧
      ∃ o, ((Solver.new Float {}).solveSized dyadic).1 = .ok o ∧
        o.status = .nontrivialSolution ∧ o.cost.iterations = 4 ∧
        ratOfDouble? (o.point.w.get 1) = some (1 / 2) ∧
        ratOfDouble? (o.point.z.get 0) = some (1 / 2) := by
  have hq : ∀ i, (dyadic.q.get i).isFinite = true := by decide +kernel
  have hm : ∀ i j, (dyadic.m.entry i j).isFinite = true := by decide +kernel
  have hround : ∀ v ∈ dyadic.exact.computed 4, ratOfDouble? (doubleOfRat v) = some v := by
    decide +kernel
  have hexact : ∀ v ∈ dyadic.exact.computed 4, IsDouble v := fun v hv =>
    ⟨doubleOfRat v, hround v hv⟩
  have hsolve : ((Solver.new ℚ {}).solveSized dyadic.exact).1.toOption.map
      (fun o => (o.status, o.cost.iterations, o.point.w, o.point.z)) =
      some (.nontrivialSolution, 4, #v[0, 1 / 2], #v[1 / 2, 0]) := by decide +kernel
  obtain ⟨o, o', ho, ho', hcourse, hpoint⟩ :=
    (Solver.solve_exact dyadic (by decide) hq hm (Solver.new Float {}) (Solver.new ℚ {}) rfl
      hexact).1 rfl
  rw [ho'] at hsolve
  simp only [Except.toOption, Option.map_some, Option.some.injEq, Prod.mk.injEq] at hsolve
  obtain ⟨hstatus, hiterations, hw, hz⟩ := hsolve
  refine ⟨⟨by decide, hq, hm, hexact⟩, o, ho, (congrArg Course.status hcourse).trans hstatus,
    (congrArg Course.iterations hcourse).trans hiterations, ?_, ?_⟩
  · rw [(hpoint 1).1, hw]
    rfl
  · rw [(hpoint 0).2, hz]
    rfl

end Complementarity
