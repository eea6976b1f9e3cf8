import Mathlib.Data.ENat.Lattice
import Mathlib.Order.CompletePartialOrder
import Complementarity.Proofs.Exits
import Complementarity.Proofs.NoCycling

/-!
# The threshold of the budget

A run does not look at its budget until that is spent.  So every problem has one number that tells
which budgets are enough, `Lcp.threshold`, the number of states of a run without a budget.  What is
proved here holds for every kind of scalar, but for one bound:

* **longer runs** — `State.trace_isPrefix`: the states of a run with a smaller budget are the first
  ones of every run with a larger budget;
* **runs that end by themselves** — `State.trace_eq_of_length_le`, `State.run_eq_of_length_le`: a
  larger budget does not change them;
* **the two sides of the threshold** — `Lcp.threshold_eq_of_length_le`,
  `Lcp.length_states_of_lt_threshold`: from the threshold on a run ends by itself and has as many
  states as the threshold says, and below it a run has one state more than its budget;
* **exact arithmetic** — `Lcp.threshold_le`: the threshold of exact data is finite;
* **the law of the threshold** — `Solver.threshold_law`: from the threshold on the result stays the
  same, and below it every run fails.
-/

namespace Complementarity

variable {α : Type} [Scalar α] {n : Nat}

namespace State

/-! ## Longer runs -/

/-- **A larger budget prolongs a run.** -/
theorem trace_isPrefix (s : State α n) {budget budget' : Nat} (h : budget ≤ budget') :
    s.trace budget <+: s.trace budget' := by
  induction budget generalizing s budget' with
  | zero =>
    obtain ⟨rest, hrest⟩ := s.trace_eq_cons budget'
    exact ⟨rest, hrest.symm⟩
  | succ budget ih =>
    obtain ⟨budget', rfl⟩ : ∃ k, budget' = k + 1 := ⟨budget' - 1, by omega⟩
    rcases s.pivoted_or_not with ⟨next, hstep⟩ | hstep
    · rw [trace_succ_of_pivoted hstep, trace_succ_of_pivoted hstep]
      exact List.prefix_cons_inj s |>.2 (ih next (by omega))
    · rw [trace_succ_of_not_pivoted hstep, trace_succ_of_not_pivoted hstep]

/-! ## Runs that end by themselves -/

/-- **A run that ends by itself** has the same states with every larger budget. -/
theorem trace_eq_of_length_le {s : State α n} {budget budget' : Nat}
    (h : (s.trace budget).length ≤ budget) (hbudget : budget ≤ budget') :
    s.trace budget' = s.trace budget := by
  induction budget generalizing s budget' with
  | zero => simp [trace] at h
  | succ budget ih =>
    obtain ⟨budget', rfl⟩ : ∃ k, budget' = k + 1 := ⟨budget' - 1, by omega⟩
    rcases s.pivoted_or_not with ⟨next, hstep⟩ | hstep
    · rw [trace_succ_of_pivoted hstep, List.length_cons, Nat.add_le_add_iff_right] at h
      rw [trace_succ_of_pivoted hstep, trace_succ_of_pivoted hstep, ih h (by omega)]
    · rw [trace_succ_of_not_pivoted hstep, trace_succ_of_not_pivoted hstep]

/-- It also ends in the same state. -/
theorem final_eq_of_length_le {s : State α n} {budget budget' : Nat}
    (h : (s.trace budget).length ≤ budget) (hbudget : budget ≤ budget') :
    s.final budget' = s.final budget := by
  refine Option.some.inj ?_
  rw [← getLast?_trace, ← getLast?_trace, trace_eq_of_length_le h hbudget]

/-- It also has the same finish, journal included. -/
theorem run_eq_of_length_le (d : Diagnostics) {s : State α n} {budget budget' : Nat}
    (h : (s.trace budget).length ≤ budget) (hbudget : budget ≤ budget') (iterations : Nat)
    (journal : Journal n) :
    s.run d budget' iterations journal = s.run d budget iterations journal := by
  rw [run_eq, run_eq, trace_eq_of_length_le h hbudget, final_eq_of_length_le h hbudget, if_pos h,
    if_pos (h.trans hbudget), min_eq_right h, min_eq_right (h.trans hbudget)]

/-- A state that does not pivot does not end a run by its budget. -/
theorem ending_ne_outOfBudget {s : State α n} (h : ∀ next, s.step ≠ .pivoted next) :
    s.ending ≠ .outOfBudget := by
  rw [ending]
  cases hstep : s.step with
  | released basis =>
    dsimp only
    rw [Ending.ofReleased]
    cases s.tableau.overflowingRow <;> simp
  | unblocked column => simp
  | pivoted next => exact absurd hstep (h next)

end State

/-- Only a spent budget is reported with its size. -/
theorem Ending.report?_eq {e : Ending n} (h : e ≠ .outOfBudget) (budget budget' pivots : Nat) :
    e.report? budget pivots = e.report? budget' pivots := by
  cases e with
  | solution basis => rfl
  | overflow row => rfl
  | ray column => rfl
  | outOfBudget => exact absurd rfl h

/-! ## The threshold -/

namespace Lcp

variable (p : Lcp α n)

/-- The number of states of a run without a budget. -/
noncomputable def threshold : ℕ∞ := ⨆ budget : ℕ, ((p.states budget).length : ℕ∞)

variable {p}

theorem length_states_le (budget : Nat) : (p.states budget).length ≤ budget + 1 := by
  cases hstart : p.start? with
  | none => simp [p.states_eq_nil_iff.2 hstart]
  | some s =>
    rw [p.states_of_start_eq_some hstart]
    exact s.length_trace_le budget

theorem states_isPrefix {budget budget' : Nat} (h : budget ≤ budget') :
    p.states budget <+: p.states budget' := by
  cases hstart : p.start? with
  | none => rw [p.states_eq_nil_iff.2 hstart, p.states_eq_nil_iff.2 hstart]
  | some s =>
    rw [p.states_of_start_eq_some hstart, p.states_of_start_eq_some hstart]
    exact s.trace_isPrefix h

theorem states_eq_of_length_le {budget budget' : Nat} (h : (p.states budget).length ≤ budget)
    (hbudget : budget ≤ budget') : p.states budget' = p.states budget := by
  cases hstart : p.start? with
  | none => rw [p.states_eq_nil_iff.2 hstart, p.states_eq_nil_iff.2 hstart]
  | some s =>
    rw [p.states_of_start_eq_some hstart] at h ⊢
    rw [p.states_of_start_eq_some hstart]
    exact State.trace_eq_of_length_le h hbudget

/-- **A run that ends by itself** has as many states as the threshold says. -/
theorem threshold_eq_of_length_le {budget : Nat} (h : (p.states budget).length ≤ budget) :
    p.threshold = (p.states budget).length := by
  refine le_antisymm (iSup_le fun budget' => ?_) (le_iSup (fun b => ((p.states b).length : ℕ∞)) _)
  rw [Nat.cast_le]
  rcases le_total budget budget' with hle | hle
  · rw [states_eq_of_length_le h hle]
  · exact (states_isPrefix hle).length_le

/-- From the threshold on a run ends by itself. -/
theorem length_states_le_of_threshold_le {budget : Nat} (h : p.threshold ≤ budget) :
    (p.states budget).length ≤ budget := by
  have hlength := (le_iSup (fun b => ((p.states b).length : ℕ∞)) budget).trans h
  exact_mod_cast hlength

/-- Below the threshold a run is cut short. -/
theorem length_states_of_lt_threshold {budget : Nat} (h : (budget : ℕ∞) < p.threshold) :
    (p.states budget).length = budget + 1 := by
  refine le_antisymm (length_states_le budget) (Nat.succ_le_of_lt ?_)
  by_contra hlength
  rw [not_lt] at hlength
  rw [threshold_eq_of_length_le hlength, Nat.cast_lt] at h
  exact h.not_ge hlength

/-- In exact arithmetic a run makes no more pivots than there are bases to meet. -/
theorem threshold_le (p : Lcp ℚ n) : p.threshold ≤ iterationBound n := by
  refine iSup_le fun budget => Nat.cast_le.2 ?_
  cases hstart : p.start? with
  | none => simp [p.states_eq_nil_iff.2 hstart]
  | some s =>
    rw [p.states_of_start_eq_some hstart]
    exact p.length_trace_le hstart budget

end Lcp

/-! ## Results with different budgets -/

/-- The same settings with another limit to the iterations. -/
def Settings.limitedTo (settings : Settings) (limit : Nat) : Settings :=
  { settings with maxIter := some limit }

theorem Settings.budget_limitedTo (settings : Settings) (limit n : Nat) :
    (settings.limitedTo limit).budget n = limit := rfl

theorem Settings.isUsable_limitedTo (settings : Settings) {limit : Nat} (h : 1 ≤ limit) :
    (settings.limitedTo limit).isUsable = true := by
  rw [isUsable, decide_eq_true_iff]
  exact fun hzero => (Nat.succ_le_iff.1 h).ne' (Option.some.inj hzero)

namespace Lcp

variable (settings : Settings) (d : Diagnostics) (workspace : Tableau α n) (buffer : Point α n)

/-- Only a spent budget shows in a result. -/
theorem outcomeOfFinish_congr {f : Finish α n} (h : f.ending ≠ .outOfBudget)
    (d : Diagnostics) (budget budget' : Nat) (buffer : Point α n) :
    outcomeOfFinish d budget f buffer = outcomeOfFinish d budget' f buffer := by
  simp only [outcomeOfFinish, Ending.report?_eq h budget budget']

/-- **A larger limit** does not change the result of a run that ends by itself. -/
theorem run_limitedTo_eq {p : Lcp α n} {limit limit' : Nat}
    (h : (p.states limit).length ≤ limit) (hlimit : limit ≤ limit') :
    (p.run (settings.limitedTo limit') d workspace buffer).1 =
      (p.run (settings.limitedTo limit) d workspace buffer).1 := by
  cases hstart : p.start? with
  | none =>
    rw [run_of_start_eq_none p _ d workspace buffer hstart,
      run_of_start_eq_none p _ d workspace buffer hstart]
    rfl
  | some s =>
    rw [p.states_of_start_eq_some hstart] at h
    rw [run_of_start_eq_some p _ d workspace buffer hstart,
      run_of_start_eq_some p _ d workspace buffer hstart, Settings.budget_limitedTo,
      Settings.budget_limitedTo]
    refine (congrArg (outcomeOfFinish _ limit' · buffer)
      (State.run_eq_of_length_le _ h hlimit 0 _)).trans (outcomeOfFinish_congr ?_ _ _ _ _)
    rw [State.ending_run, if_pos h]
    exact State.ending_ne_outOfBudget (s.not_pivoted_final h)

/-- **A run that is cut short** has no result. -/
theorem run_of_length_eq {p : Lcp α n}
    (h : (p.states (settings.budget n)).length = settings.budget n + 1) :
    (p.run settings d workspace buffer).1.status = .failedToConverge ∧
      (p.run settings d workspace buffer).1.point = Point.zero α n := by
  cases p.exit_run settings d workspace buffer with
  | trivial hstart _ _ =>
    rw [p.states_eq_nil_iff.2 hstart] at h
    nomatch h
  | outOfBudget _ hstatus hpoint => exact ⟨hstatus, hpoint⟩
  | solution s hends _ _ _ _ => exact absurd hends.length_le (by omega)
  | overflow s hends _ _ _ _ _ => exact absurd hends.length_le (by omega)
  | ray s hends _ _ _ => exact absurd hends.length_le (by omega)

end Lcp

/-! ## The law -/

namespace Solver

/-- The same solver with another limit to the iterations. -/
def limitedTo (s : Solver α) (limit : Nat) : Solver α := s.setSettings (s.settings.limitedTo limit)

variable {p : Problem α} {lcp : Lcp α p.dim}

/-- What a solver with another limit returns for an acceptable problem. -/
theorem solve_limitedTo (s : Solver α) (hp : p.sized = .ok lcp) (hfault : lcp.fault? = none)
    {limit : Nat} (hlimit : 1 ≤ limit) :
    ((s.limitedTo limit).solve p).1 = .ok
      (lcp.run (s.settings.limitedTo limit) s.diagnostics (s.workspace p.dim)
        (Point.zero α p.dim)).1 :=
  solve_of_fault_eq_none hp hfault (s.settings.isUsable_limitedTo hlimit)

/-- Limits that do not cut a run short lead to the same answer. -/
theorem solve_limitedTo_congr (s : Solver α) (hp : p.sized = .ok lcp) (hfault : lcp.fault? = none)
    {limit limit' : Nat} (hlimit : 1 ≤ limit) (hlimit' : 1 ≤ limit')
    (h : lcp.threshold ≤ limit) (h' : lcp.threshold ≤ limit') :
    ((s.limitedTo limit).solve p).1 = ((s.limitedTo limit').solve p).1 := by
  wlog hle : limit ≤ limit' generalizing limit limit'
  · exact (this hlimit' hlimit h' h (le_of_not_ge hle)).symm
  rw [s.solve_limitedTo hp hfault hlimit, s.solve_limitedTo hp hfault hlimit']
  exact congrArg Except.ok
    (lcp.run_limitedTo_eq _ _ _ _ (Lcp.length_states_le_of_threshold_le h) hle).symm

/-- A limit that does not cut a run short leads to as many iterations as the threshold says. -/
theorem exists_solve_limitedTo (s : Solver α) (hp : p.sized = .ok lcp)
    (hfault : lcp.fault? = none) {limit : Nat} (hlimit : 1 ≤ limit) (h : lcp.threshold ≤ limit) :
    ∃ o, ((s.limitedTo limit).solve p).1 = .ok o ∧
      (o.cost.iterations : ℕ∞) = lcp.threshold := by
  have hlength := Lcp.length_states_le_of_threshold_le h
  refine ⟨_, s.solve_limitedTo hp hfault hlimit, ?_⟩
  rw [Lcp.iterations_run_eq, Settings.budget_limitedTo, min_eq_right hlength,
    Lcp.threshold_eq_of_length_le hlength]

/-- **The law of the threshold.**  For every acceptable problem, all limits from its threshold on
lead to one result, which has as many iterations as the threshold says, and every smaller limit
leads to a failure that has spent it, with one more pivot.  The threshold depends on the problem
alone, and it is finite in exact arithmetic. -/
theorem threshold_law (hp : p.sized = .ok lcp) (hfault : lcp.fault? = none) (s : Solver α) :
    (∃ o, ∀ limit : ℕ, 1 ≤ limit → lcp.threshold ≤ limit →
      ((s.limitedTo limit).solve p).1 = .ok o ∧ (o.cost.iterations : ℕ∞) = lcp.threshold) ∧
    (∀ limit : ℕ, 1 ≤ limit → limit < lcp.threshold →
      ∃ o, ((s.limitedTo limit).solve p).1 = .ok o ∧ o.status = .failedToConverge ∧
        o.point = Point.zero α p.dim ∧ o.cost.iterations = limit ∧ o.cost.pivots = limit + 1) ∧
    ∀ (m : ℕ) (r : Lcp ℚ m), r.threshold ≠ ⊤ := by
  refine ⟨?_, fun limit hlimit hlt => ?_, fun m r => ?_⟩
  · by_cases hfinite : ∃ limit : ℕ, 1 ≤ limit ∧ lcp.threshold ≤ limit
    · obtain ⟨limit, hlimit, h⟩ := hfinite
      obtain ⟨o, ho, hiterations⟩ := s.exists_solve_limitedTo hp hfault hlimit h
      refine ⟨o, fun limit' hlimit' h' => ⟨?_, hiterations⟩⟩
      exact (s.solve_limitedTo_congr hp hfault hlimit' hlimit h' h).trans ho
    · exact ⟨lcp.trivialOutcome false, fun limit hlimit h => absurd ⟨limit, hlimit, h⟩ hfinite⟩
  · have hlength := Lcp.length_states_of_lt_threshold hlt
    obtain ⟨hstatus, hpoint⟩ := Lcp.run_of_length_eq (s.settings.limitedTo limit) s.diagnostics
      (s.workspace p.dim) (Point.zero α p.dim) hlength
    obtain ⟨hiterations, hpivots⟩ := Lcp.cost_run_of_length_eq (s.settings.limitedTo limit)
      s.diagnostics (s.workspace p.dim) (Point.zero α p.dim) hlength
    exact ⟨_, s.solve_limitedTo hp hfault hlimit, hstatus, hpoint, hiterations, hpivots⟩
  · exact ne_top_of_le_ne_top (ENat.natCast_ne_top _) r.threshold_le

end Solver

/-- The run of this problem makes three iterations, and two are not enough. -/
theorem threshold_law_tied :
    (∃ o, o.cost.iterations = 3 ∧
      ∀ limit, 3 ≤ limit → (((Solver.new ℚ {}).limitedTo limit).solve (.ofLcp tied)).1 = .ok o) ∧
    ∃ o, (((Solver.new ℚ {}).limitedTo 2).solve (.ofLcp tied)).1 = .ok o ∧
      o.status = .failedToConverge ∧ o.point = Point.zero ℚ 2 ∧
      o.cost.iterations = 2 ∧ o.cost.pivots = 3 := by
  have hsized : (Problem.ofLcp tied).sized = .ok tied := rfl
  have hlength : (tied.states 3).length = 3 := by decide +kernel
  have hthreshold : tied.threshold = (3 : ℕ) := by
    rw [Lcp.threshold_eq_of_length_le hlength.le, hlength]
  obtain ⟨⟨o, habove⟩, hbelow, -⟩ :=
    Solver.threshold_law hsized (tied.fault?_eq_none Nat.two_pos) (Solver.new ℚ {})
  have htwo : ((2 : ℕ) : ℕ∞) < tied.threshold := by
    rw [hthreshold]
    exact Nat.cast_lt.2 (by decide)
  have hiterations : (o.cost.iterations : ℕ∞) = (3 : ℕ) :=
    (habove 3 (by decide) hthreshold.le).2.trans hthreshold
  refine ⟨⟨o, Nat.cast_inj.1 hiterations, fun limit hlimit => ?_⟩, hbelow 2 (by decide) htwo⟩
  exact (habove limit (by omega) (hthreshold.le.trans (Nat.cast_le.2 hlimit))).1

end Complementarity
