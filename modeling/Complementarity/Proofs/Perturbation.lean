import Complementarity.Proofs.Infinitesimal
import Complementarity.Proofs.Invariants

/-!
# The symbolic perturbation stands for a small number

A solve compares constants that are perturbed by powers of an infinitesimal.  Here the same
perturbation is made with a number `e`: `Lcp.shift` adds `e ^ (r + 1)` to constant `r`.  The two
solves run side by side: in every state of the second the constant of a row is the value at `e` of
the polynomial that the row has in the first, and all else is equal (`State.shift`).

* **a shift goes along with a pivot** — `Tableau.shift_pivot`, and with loading the problem,
  `Lcp.loaded_shift`;
* **the same rows near zero** — `Lcp.IsDictionary.eventually_blockingRow_shift` and
  `Lcp.eventually_start?_shift`: as no two rows tie, for all small positive `e` the shifted
  comparisons come out as the symbolic ones;
* **the same run** — `Lcp.eventually_tracks`: finitely many comparisons decide a run, so for all
  small positive `e` the shifted solve passes through the shifted states;
* **the same result** — `Lcp.Tracks.sameCourse` and `Lcp.Tracks.point_run`; the values of the
  variables are polynomials in `e`.  Both come together in `Solver.exists_tracking_solve`.
-/

namespace Complementarity

open Filter Topology Tableau Variable

variable {n : Nat}

/-! ## Shifts -/

/-- The problem with powers of a number added to its constants. -/
def Lcp.shift (p : Lcp ℚ n) (e : ℚ) : Lcp ℚ n where
  q := Vector.ofFn fun r => p.q.get r + e ^ (r.val + 1)
  m := p.m

/-- The tableau with the values of its polynomials at a number as constants. -/
def Tableau.shift (t : Tableau ℚ n) (e : ℚ) : Tableau ℚ n :=
  ⟨Dense.ofFn fun r c => if c.val = n + 1 then Perturbed.evalAt e (t.value r) else t.entry r c⟩

/-- The state with a shifted tableau. -/
def State.shift (s : State ℚ n) (e : ℚ) : State ℚ n := { s with tableau := s.tableau.shift e }

namespace Tableau

/-- A tableau is known by its coefficients and perturbed constants. -/
theorem ext_of_value {t u : Tableau ℚ n}
    (hcoefficient : ∀ r c, t.coefficient r c = u.coefficient r c)
    (hvalue : ∀ r, t.value r = u.value r) : t = u := by
  refine ext fun r c => ?_
  by_cases hc : c.val ≤ n
  · exact hcoefficient r ⟨c.val, Nat.lt_succ_of_le hc⟩
  · obtain ⟨k, rfl⟩ : ∃ k : Fin (n + 1), c = polynomialColumn k :=
      ⟨⟨c.val - (n + 1), by omega⟩, Fin.ext (by simp only [polynomialColumn]; omega)⟩
    exact congrArg (fun x : Perturbed n => ofLex x k) (hvalue r)

variable (t : Tableau ℚ n) (e : ℚ)

@[simp] theorem coefficient_shift (r : Fin n) (c : Fin (n + 1)) :
    (t.shift e).coefficient r c = t.coefficient r c := by
  have hc : (coefficientColumn c).val ≠ n + 1 := c.isLt.ne
  simp only [coefficient, shift, entry, Dense.entry_ofFn, if_neg hc]

@[simp] theorem value_shift (r : Fin n) : (t.shift e).value r = Perturbed.shift e (t.value r) := by
  refine ofLex_inj.1 (funext fun k => ?_)
  show (t.shift e).entry r (polynomialColumn k) = _
  rw [shift, entry, Dense.entry_ofFn]
  cases k using Fin.cases with
  | zero => exact if_pos rfl
  | succ k =>
    refine if_neg fun h => k.val.succ_ne_zero ?_
    simpa only [polynomialColumn, Fin.val_succ, Nat.add_eq_left] using h

theorem constant_shift (r : Fin n) : (t.shift e).constant r = Perturbed.evalAt e (t.value r) := by
  rw [← ofLex_value_zero, value_shift, Perturbed.ofLex_shift_zero]

/-- Nothing changes at zero. -/
theorem shift_zero : t.shift 0 = t := by
  refine ext_of_value (t.coefficient_shift 0) fun r => ?_
  rw [value_shift]
  refine ofLex_inj.1 (funext fun k => ?_)
  cases k using Fin.cases with
  | zero => exact Perturbed.evalAt_zero _
  | succ k => rfl

/-- **A shift goes along with a pivot.** -/
theorem shift_pivot (b : Fin n) (d : Fin (n + 1)) :
    (t.shift e).pivot b (coefficientColumn d) = (t.pivot b (coefficientColumn d)).shift e := by
  refine ext_of_value (fun r c => ?_) fun r => ?_
  · rw [coefficient_shift, coefficient_pivot, coefficient_pivot]
    simp only [coefficient_shift]
  · rw [value_shift, value_pivot, value_pivot]
    simp only [coefficient_shift, value_shift]
    split
    · rw [map_smul]
    · rw [map_sub, map_smul]

theorem limit_shift (d : Fin (n + 1)) (r : Fin n) :
    (t.shift e).limit d r = Perturbed.shift e (t.limit d r) := by
  rw [limit, limit, coefficient_shift, value_shift, map_smul]

end Tableau

/-- Nothing changes at zero. -/
theorem State.shift_zero (s : State ℚ n) : s.shift 0 = s := by
  rw [shift, Tableau.shift_zero]

theorem State.shift_pivotAt (s : State ℚ n) (e : ℚ) (row : Fin n) :
    (s.shift e).pivotAt row = (s.pivotAt row).shift e := by
  rw [pivotAt, pivotAt, shift, shift, ← shift_pivot]
  rfl

namespace Lcp

variable (p : Lcp ℚ n)

/-- Nothing changes at zero. -/
theorem shift_zero : p.shift 0 = p := by
  obtain ⟨q, m⟩ := p
  refine congrArg (Lcp.mk · m) (vector_ext fun r => ?_)
  rw [vector_get_ofFn, zero_pow r.val.succ_ne_zero, add_zero]

/-- The constants of the shifted problem are values of the polynomials of the first tableau. -/
theorem get_q_shift (e : ℚ) (r : Fin n) :
    (p.shift e).q.get r = Perturbed.evalAt e (p.loaded.value r) := by
  rw [shift, vector_get_ofFn, value_loaded, map_add, map_smul, Perturbed.evalAt_power,
    Perturbed.evalAt_power, Fin.val_zero, pow_zero, smul_eq_mul, mul_one, Fin.val_succ]

/-- **A shift goes along with loading the problem.** -/
theorem loaded_shift (e : ℚ) : (p.shift e).loaded = p.loaded.shift e := by
  refine ext_of_value (fun r c => ?_) fun r => ?_
  · rw [coefficient_shift]
    cases c using Fin.lastCases with
    | last => rw [coefficient_loaded_last, coefficient_loaded_last]
    | cast j =>
      rw [coefficient_loaded_castSucc, coefficient_loaded_castSucc]
      rfl
  · rw [value_shift]
    refine ofLex_inj.1 (funext fun k => ?_)
    show (p.shift e).loaded.entry r (polynomialColumn k) = _
    rw [entry_loaded_polynomialColumn]
    cases k using Fin.cases with
    | zero => rw [if_pos rfl, Perturbed.ofLex_shift_zero, get_q_shift]
    | succ k =>
      rw [if_neg (Fin.succ_ne_zero k), Perturbed.ofLex_shift_succ, value, ofLex_toLex,
        entry_loaded_polynomialColumn, if_neg (Fin.succ_ne_zero k)]

/-- The first pivot of the shifted problem leads to the shifted state. -/
theorem start_loaded_shift (e : ℚ) (row : Fin n) :
    State.start (p.shift e).loaded row = (State.start p.loaded row).shift e := by
  have hone : ∀ r, p.loaded.entry r artificialColumn = 1 := p.coefficient_loaded_last
  have hone' : ∀ r, (p.shift e).loaded.entry r artificialColumn = 1 :=
    (p.shift e).coefficient_loaded_last
  rw [State.start, State.start, State.shift, enterArtificial_eq_pivot _ _ hone,
    enterArtificial_eq_pivot _ _ hone', loaded_shift, artificialColumn, shift_pivot]

end Lcp

/-! ## The same rows near zero -/

section Rows

variable {p : Lcp ℚ n} {t : Tableau ℚ n} {b : Basis n} {left : Fin (n + 1)}

/-- **The ratio test near zero.**  For all small positive numbers the same row blocks. -/
theorem Lcp.IsDictionary.eventually_blockingRow_shift (h : p.IsDictionary t b)
    (hb : b.Arranged left) (d : Fin (n + 1)) :
    ∀ᶠ e : ℚ in 𝓝[>] 0, (t.shift e).blockingRow d = t.blockingRow d := by
  cases hrow : t.blockingRow d with
  | none =>
    refine Eventually.of_forall fun e => ?_
    rw [blockingRow_eq_none_iff] at hrow ⊢
    simpa only [coefficient_shift] using hrow
  | some row =>
    obtain ⟨hneg, hlt⟩ := (h.blockingRow_eq_some_iff hb).1 hrow
    have hshifted : ∀ᶠ e : ℚ in 𝓝[>] 0, ∀ r, r ≠ row → t.coefficient r d < 0 →
        Perturbed.shift e (t.limit d row) < Perturbed.shift e (t.limit d r) := by
      simp only [eventually_all]
      exact fun r hne hr => Perturbed.eventually_shift_lt (hlt r hne hr)
    filter_upwards [hshifted] with e he
    refine blockingRow_eq_some_of_lt ?_ fun r hne hr => ?_
    · rwa [coefficient_shift]
    · rw [coefficient_shift] at hr
      rw [limit_shift, limit_shift]
      exact he r hne hr

/-- **The first row near zero.**  For all small positive numbers the artificial variable enters in
the same row. -/
theorem Lcp.eventually_start?_shift {s : State ℚ n} (h : p.start? = some s) :
    ∀ᶠ e : ℚ in 𝓝[>] 0, (p.shift e).start? = some (s.shift e) := by
  obtain ⟨row, rfl, hneg, hlt, -⟩ := p.exists_strict_lowestRow h
  have hshifted : ∀ᶠ e : ℚ in 𝓝[>] 0, ∀ r, r ≠ row →
      Perturbed.shift e (p.loaded.value row) < Perturbed.shift e (p.loaded.value r) := by
    simp only [eventually_all]
    exact fun r hne => Perturbed.eventually_shift_lt (hlt r hne)
  filter_upwards [hshifted, Perturbed.eventually_shift_lt hneg] with e he hneg
  rw [← start_loaded_shift]
  refine start?_eq_some_of_lt ?_ fun r hne => ?_
  · rwa [loaded_shift, value_shift, ← map_zero (Perturbed.shift e)]
  · rw [loaded_shift, value_shift, value_shift]
    exact he r hne

/-- A problem that is not pivoted is not pivoted with larger constants. -/
theorem Lcp.start?_shift_eq_none {e : ℚ} (he : 0 ≤ e) (h : p.start? = none) :
    (p.shift e).start? = none := by
  rw [start?_eq_none_iff] at h ⊢
  intro r
  rw [shift, vector_get_ofFn]
  exact add_nonneg (h r) (pow_nonneg he _)

end Rows

/-! ## The same run -/

namespace State

variable {p : Lcp ℚ n} {s : State ℚ n} {e : ℚ}

/-- A shifted state pivots as the state does, if the same row blocks. -/
theorem step_shift_eq_pivoted (hrow : (s.shift e).tableau.blockingRow s.driving =
    s.tableau.blockingRow s.driving) {next : State ℚ n} (h : s.step = .pivoted next) :
    (s.shift e).step = .pivoted (next.shift e) := by
  obtain ⟨hreleased, row, hblocks, rfl⟩ := step_eq_pivoted_iff.1 h
  exact step_eq_pivoted_iff.2 ⟨hreleased, row, hrow.trans hblocks, (s.shift_pivotAt e row).symm⟩

/-- A shifted state pivots only if the state does, if the same row blocks. -/
theorem step_shift_ne_pivoted (hrow : (s.shift e).tableau.blockingRow s.driving =
    s.tableau.blockingRow s.driving) (h : ∀ next, s.step ≠ .pivoted next) :
    ∀ next, (s.shift e).step ≠ .pivoted next := by
  intro next hstep
  obtain ⟨hreleased, row, hblocks, -⟩ := step_eq_pivoted_iff.1 hstep
  exact h _ (step_eq_pivoted_iff.2 ⟨hreleased, row, hrow.symm.trans hblocks, rfl⟩)

/-- **The run near zero.**  For all small positive numbers the run from the shifted state passes
through the shifted states. -/
theorem Valid.eventually_trace_shift (h : s.Valid p) (budget : Nat) :
    ∀ᶠ e : ℚ in 𝓝[>] 0, (s.shift e).trace budget = (s.trace budget).map (State.shift · e) := by
  induction budget generalizing s with
  | zero => exact Eventually.of_forall fun e => rfl
  | succ budget ih =>
    -- the next state does not depend on the number, so the induction hypothesis applies to it and
    -- the two bounds on the number are combined
    have hrow := h.dictionary.eventually_blockingRow_shift h.arranged s.driving
    rcases s.pivoted_or_not with ⟨next, hstep⟩ | hstep
    · filter_upwards [hrow, ih (h.step hstep)] with e hrow hrest
      rw [trace_succ_of_pivoted hstep, trace_succ_of_pivoted (step_shift_eq_pivoted hrow hstep),
        hrest]
      rfl
    · filter_upwards [hrow] with e hrow
      rw [trace_succ_of_not_pivoted hstep,
        trace_succ_of_not_pivoted (step_shift_ne_pivoted hrow hstep)]
      rfl

end State

namespace Lcp

variable {p : Lcp ℚ n} {budget : Nat} {e : ℚ}

/-- The shifted solve passes through the shifted states. -/
def Tracks (p : Lcp ℚ n) (budget : Nat) (e : ℚ) : Prop :=
  (p.shift e).states budget = (p.states budget).map (State.shift · e)

theorem tracks_zero (p : Lcp ℚ n) (budget : Nat) : p.Tracks budget 0 := by
  have hid : (fun s : State ℚ n => s.shift 0) = id := funext State.shift_zero
  rw [Tracks, p.shift_zero, hid, List.map_id]

/-- **The same run.**  For all small positive numbers the shifted solve passes through the shifted
states. -/
theorem eventually_tracks (p : Lcp ℚ n) (budget : Nat) : ∀ᶠ e : ℚ in 𝓝[>] 0, p.Tracks budget e := by
  cases hstart : p.start? with
  | none =>
    filter_upwards [self_mem_nhdsWithin] with e (he : 0 < e)
    have hshifted := start?_shift_eq_none he.le hstart
    rw [Tracks, (states_eq_nil_iff _).2 hstart, (states_eq_nil_iff _).2 hshifted, List.map_nil]
  | some s =>
    filter_upwards [eventually_start?_shift hstart,
      (State.valid_of_start hstart).eventually_trace_shift budget] with e hfirst htrace
    rw [Tracks, states_of_start_eq_some _ hstart, states_of_start_eq_some _ hfirst, htrace]

end Lcp

/-! ## The same result -/

/-- Two results with the same status and the same counts that were reached by the same pivots. -/
structure Outcome.SameCourse {α : Type} (o o' : Outcome α n) : Prop where
  status : o'.status = o.status
  iterations : o'.cost.iterations = o.cost.iterations
  pivotCount : o'.cost.pivots = o.cost.pivots
  pivots : o'.pivots = o.pivots

namespace Lcp

variable {p : Lcp ℚ n} {settings : Settings} {e : ℚ}

/-- **The same course.**  A solve that passes through shifted states has the same status and counts
and makes the same pivots. -/
theorem Tracks.sameCourse (h : p.Tracks (settings.budget n) e) (d d' : Diagnostics)
    (workspace workspace' : Tableau ℚ n) (buffer buffer' : Point ℚ n) :
    (p.run settings d workspace buffer).1.SameCourse
      ((p.shift e).run settings d' workspace' buffer').1 := by
  have hpivots : ((p.shift e).run settings d' workspace' buffer').1.pivots =
      (p.run settings d workspace buffer).1.pivots := by
    rw [pivots_run_eq, pivots_run_eq, h, List.map_map]
    rfl
  refine ⟨?_, ?_, ?_, hpivots⟩
  · rw [status_run_eq_elim, status_run_eq_elim, h, List.getLast?_map, List.length_map]
    cases (p.states (settings.budget n)).getLast? <;> rfl
  · rw [iterations_run_eq, iterations_run_eq, h, List.length_map]
  · rw [cost_pivots_run, cost_pivots_run, hpivots]

/-- The perturbed values that the variables have in the result: those of the last state if the
artificial variable has left there, and zero otherwise.  Without a pivot they are those of the first
tableau. -/
noncomputable def values (p : Lcp ℚ n) (budget : Nat) : Variable n → Perturbed n :=
  (p.states budget).getLast?.elim ((Basis.initial n).along p.loaded.value (Fin.last n) 0) fun s =>
    if (p.states budget).length ≤ budget ∧ s.isReleased = true then
      s.current.along s.tableau.value s.column 0
    else 0

/-- **The values are polynomials.**  A solve that passes through shifted states returns the values
of the perturbed values at the number. -/
theorem Tracks.point_run (h : p.Tracks (settings.budget n) e) (d : Diagnostics)
    (workspace : Tableau ℚ n) (buffer : Point ℚ n) (i : Fin n) :
    ((p.shift e).run settings d workspace buffer).1.point.w.get i =
        Perturbed.evalAt e (p.values (settings.budget n) (.w i.castSucc)) ∧
      ((p.shift e).run settings d workspace buffer).1.point.z.get i =
        Perturbed.evalAt e (p.values (settings.budget n) (.z i.castSucc)) := by
  have hzero : (Vector.replicate n (0 : ℚ)).get i = 0 := Vector.getElem_replicate i.isLt
  rw [point_run_eq_elim, h, List.getLast?_map, List.length_map, values]
  cases hlast : (p.states (settings.budget n)).getLast? with
  | none =>
    have hz : Variable.z i.castSucc ∉ (Basis.initial n).basicSet := by
      rw [Basis.mem_basicSet]
      rintro ⟨r, hr⟩
      rw [Basis.inRow_initial] at hr
      nomatch hr
    simp only [Option.map_none, Option.elim_none]
    refine ⟨?_, ?_⟩
    · rw [← Basis.inRow_initial, Basis.along_inRow Basis.arranged_initial, get_q_shift]
    · rw [Basis.along_zero_of_notMem _ _ hz, map_zero, hzero]
  | some s =>
    obtain ⟨first, hstart, hmem⟩ := p.mem_states_iff.1 (List.mem_of_getLast? hlast)
    have harranged := (State.Valid.of_mem_trace hstart hmem).arranged
    have hconstant : (s.shift e).tableau.constant =
        fun r => Perturbed.evalAt e (s.tableau.value r) := funext (s.tableau.constant_shift e)
    simp only [Option.map_some, Option.elim_some]
    have hreleased : (s.shift e).isReleased = s.isReleased := rfl
    by_cases hsolution :
        (p.states (settings.budget n)).length ≤ settings.budget n ∧ s.isReleased = true
    · rw [if_pos (hreleased.symm ▸ hsolution), if_pos hsolution, Basis.map_along _ harranged,
        Basis.map_along _ harranged, ← hconstant]
      exact ⟨harranged.w_readOff (s.shift e).tableau buffer i,
        harranged.z_readOff (s.shift e).tableau buffer i⟩
    · rw [if_neg (hreleased.symm ▸ hsolution), if_neg hsolution, Pi.zero_apply, Pi.zero_apply,
        map_zero]
      exact ⟨hzero, hzero⟩

end Lcp

/-- **A small number in place of the infinitesimal.**  For all small positive numbers the solve with
powers of the number added to the constants has the same status, counts as many iterations and
pivots and makes the same pivots, and the values that it returns are polynomials in the number,
whose constants are the values that the unperturbed solve returns.  Settings that allow no iteration
are refused in both cases. -/
theorem Solver.exists_tracking_solve (p : Lcp ℚ n) (hn : 0 < n) (settings : Settings) :
    ∃ e₀ > 0, ∃ P Q : Fin n → Polynomial ℚ,
      (∀ i, (P i).natDegree ≤ n ∧ (Q i).natDegree ≤ n) ∧
      ∀ s s' : Solver ℚ, s.settings = settings → s'.settings = settings →
        ∀ e, 0 < e → e < e₀ →
          (settings.isUsable = true → ∃ o o', (s.solveSized p).1 = .ok o ∧
            (s'.solveSized (p.shift e)).1 = .ok o' ∧ o.SameCourse o' ∧
            ∀ i, o.point.w.get i = (P i).eval 0 ∧ o.point.z.get i = (Q i).eval 0 ∧
              o'.point.w.get i = (P i).eval e ∧ o'.point.z.get i = (Q i).eval e) ∧
          (settings.isUsable = false → (s.solveSized p).1 = .error .noIterations ∧
            (s'.solveSized (p.shift e)).1 = .error .noIterations) := by
  obtain ⟨e₀, he₀, hnear⟩ :=
    mem_nhdsGT_iff_exists_Ioo_subset.1 (p.eventually_tracks (settings.budget n))
  refine ⟨e₀, he₀, fun i => (p.values (settings.budget n) (.w i.castSucc)).toPolynomial,
    fun i => (p.values (settings.budget n) (.z i.castSucc)).toPolynomial,
    fun i => ⟨Perturbed.natDegree_toPolynomial_le _, Perturbed.natDegree_toPolynomial_le _⟩,
    fun s s' hs hs' e hpos hlt => ⟨fun husable => ?_, fun hrefused => ?_⟩⟩
  · have htracks : p.Tracks (settings.budget n) e := hnear ⟨hpos, hlt⟩
    refine ⟨_, _, s.solveSized_fst p hn (hs ▸ husable),
      s'.solveSized_fst (p.shift e) hn (hs' ▸ husable), ?_, fun i => ?_⟩
    · rw [hs, hs']
      exact htracks.sameCourse _ _ _ _ _ _
    · obtain ⟨hw, hz⟩ := (p.tracks_zero (settings.budget n)).point_run s.diagnostics
        (s.workspace n) (Point.zero ℚ n) i
      obtain ⟨hw', hz'⟩ := htracks.point_run s'.diagnostics (s'.workspace n) (Point.zero ℚ n) i
      rw [p.shift_zero] at hw hz
      simp only [Perturbed.eval_toPolynomial, hs, hs']
      exact ⟨hw, hz, hw', hz'⟩
  · have herror : InputError.ofSettings? settings = some .noIterations := by
      rw [InputError.ofSettings?, if_neg (Bool.eq_false_iff.1 hrefused)]
    refine ⟨congrArg Prod.fst (s.solveInto_of_refusal _ ?_),
      congrArg Prod.fst (s'.solveInto_of_refusal _ ?_)⟩
    · rw [p.refusal?_eq hn, hs, herror]
    · rw [(p.shift e).refusal?_eq hn, hs', herror]

theorem exists_tracking_solve_tied :
    0 < 2 ∧ ∃ e₀ > 0, ∃ P Q : Fin 2 → Polynomial ℚ,
      (∀ i, (P i).natDegree ≤ 2 ∧ (Q i).natDegree ≤ 2) ∧ ∀ e, 0 < e → e < e₀ →
        ∃ o, ((Solver.new ℚ {}).solveSized (tied.shift e)).1 = .ok o ∧
          o.status = .nontrivialSolution ∧ o.pivots = [⟨1, 2⟩, ⟨0, 1⟩, ⟨1, 0⟩] ∧
          ∀ i, o.point.w.get i = (P i).eval e ∧ o.point.z.get i = (Q i).eval e := by
  have hsolve : ((Solver.new ℚ {}).solveSized tied).1.toOption.map
      (fun o => (o.status, o.pivots)) =
      some (.nontrivialSolution, [⟨1, 2⟩, ⟨0, 1⟩, ⟨1, 0⟩]) := by decide +kernel
  obtain ⟨e₀, he₀, P, Q, hdegree, hnear⟩ :=
    Solver.exists_tracking_solve tied (by decide) (Settings.ofEnvironment {})
  refine ⟨by decide, e₀, he₀, P, Q, hdegree, fun e hpos hlt => ?_⟩
  obtain ⟨o, o', ho, ho', hcourse, hpoint⟩ :=
    (hnear (Solver.new ℚ {}) (Solver.new ℚ {}) rfl rfl e hpos hlt).1 rfl
  rw [ho] at hsolve
  obtain ⟨hstatus, hpivots⟩ := Prod.mk.inj (Option.some.inj hsolve)
  exact ⟨o', ho', hcourse.status.trans hstatus, hcourse.pivots.trans hpivots,
    fun i => (hpoint i).2.2⟩

end Complementarity
