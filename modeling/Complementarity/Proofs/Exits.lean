import Complementarity.Proofs.Solution
import Complementarity.Proofs.WeakOrder

/-!
# The exits of a solve

A solve leaves the method at one of five places, and each of them writes the vectors and counts in
its own way.  Pivots of binary numbers may overflow, so nothing here rests on arithmetic: the
control flow decides at which exit a solve arrives, and the bookkeeping decides what is read off.

* **the last state** — `Lcp.EndsIn`: where a run ends that its budget does not cut short, and
  `Lcp.EndsIn.two_le_length`: the artificial variable does not leave before the second pivot;
* **the exits** — `Lcp.Exit`, `Lcp.exit_run`: the conditions of each exit, and the status and the
  point with which a solve leaves there;
* **what is counted** — `Lcp.EndsIn.cost_run`, `Lcp.cost_run_of_length_eq`: one iteration for each
  pivot, but for the last pivot of a run that is cut short;
* **reading off** — `Basis.Arranged.readOff_eq_zero_or`, `Basis.Arranged.isFinite_readOff`: of each
  pair of coordinates one is zero, and none is infinite or a NaN if the rows are not;
* **the contract** — `Lcp.Contract`, `Solver.contract_solve`: what each status promises to a caller.
-/

namespace Complementarity

variable {α : Type} [Scalar α] {n : Nat}

/-! ## The last state -/

/-- The artificial variable stays in the basis when it enters. -/
theorem State.isReleased_start (t : Tableau α n) (row : Fin n) :
    (start t row).isReleased = false := by
  have hlinked := Basis.linked_initial row
  rw [Bool.eq_false_iff, ne_eq, (bookkept_start t row).isReleased_iff]
  exact hlinked.inColumn_ne_artificial (Fin.last n)

theorem Tableau.isFinite_of_overflowingRow_eq_some {t : Tableau α n} {row : Fin n}
    (h : t.overflowingRow = some row) : Scalar.isFinite (t.constant row) = false := by
  simpa using List.find?_some h

namespace Lcp

variable {p : Lcp α n} {budget : Nat} {s : State α n}

/-- A run that its budget does not cut short ends in this state. -/
structure EndsIn (p : Lcp α n) (budget : Nat) (s : State α n) : Prop where
  last : (p.states budget).getLast? = some s
  length_le : (p.states budget).length ≤ budget

namespace EndsIn

theorem mem (h : p.EndsIn budget s) : s ∈ p.states budget := List.mem_of_getLast? h.last

theorem bookkept (h : p.EndsIn budget s) : s.Bookkept := by
  obtain ⟨first, hstart, hs⟩ := p.mem_states_iff.1 h.mem
  exact p.bookkept_of_mem_trace hstart hs

theorem start?_ne_none (h : p.EndsIn budget s) : p.start? ≠ none :=
  fun hstart => List.ne_nil_of_mem h.mem (p.states_eq_nil_iff.2 hstart)

theorem one_le_length (h : p.EndsIn budget s) : 1 ≤ (p.states budget).length :=
  List.length_pos_of_mem h.mem

/-- The artificial variable does not leave before the second pivot. -/
theorem two_le_length (h : p.EndsIn budget s) (hreleased : s.isReleased = true) :
    2 ≤ (p.states budget).length := by
  obtain ⟨first, hstart, -⟩ := p.mem_states_iff.1 h.mem
  obtain ⟨row, rfl⟩ := p.exists_start_of_start_eq_some hstart
  obtain ⟨rest, hrest⟩ := (State.start p.loaded row).trace_eq_cons budget
  have hlast := h.last
  rw [p.states_of_start_eq_some hstart, hrest] at hlast ⊢
  cases rest with
  | nil =>
    have hs : State.start p.loaded row = s := Option.some.inj hlast
    rw [← hs, State.isReleased_start] at hreleased
    nomatch hreleased
  | cons next rest => exact Nat.le_add_left 2 rest.length

end EndsIn

/-! ## The exits -/

/-- Where a solve leaves the method, and with what. -/
inductive Exit (p : Lcp α n) (budget : Nat) (buffer : Point α n) (o : Outcome α n) : Prop
  /-- The method does not pivot. -/
  | trivial (hstart : p.start? = none) (hstatus : o.status = .trivialSolution)
      (hpoint : o.point = ⟨p.q, Vector.replicate n 0⟩)
  /-- The artificial variable has left, and the constants of the rows are finite. -/
  | solution (s : State α n) (hends : p.EndsIn budget s) (hreleased : s.isReleased = true)
      (hfinite : ∀ r, Scalar.isFinite (s.tableau.constant r) = true)
      (hstatus : o.status = .nontrivialSolution)
      (hpoint : o.point = s.current.readOff s.tableau buffer)
  /-- The artificial variable has left, but the constant of a row is not finite. -/
  | overflow (s : State α n) (hends : p.EndsIn budget s) (hreleased : s.isReleased = true)
      (row : Fin n) (hrow : Scalar.isFinite (s.tableau.constant row) = false)
      (hstatus : o.status = .failedToConverge) (hpoint : o.point = Point.zero α n)
  /-- No row blocks the driving variable. -/
  | ray (s : State α n) (hends : p.EndsIn budget s) (hreleased : s.isReleased = false)
      (hstatus : o.status = .noSolution) (hpoint : o.point = Point.zero α n)
  /-- The budget is spent, after one more pivot than it has iterations. -/
  | outOfBudget (hlength : (p.states budget).length = budget + 1)
      (hstatus : o.status = .failedToConverge) (hpoint : o.point = Point.zero α n)

/-- A run that ends by itself leaves where its last state says. -/
theorem EndsIn.exit {s : State α n} {buffer : Point α n} {o : Outcome α n}
    (h : p.EndsIn budget s) (hstep : ∀ next, s.step ≠ .pivoted next)
    (hstatus : o.status = s.ending.status)
    (hpoint : o.point = s.ending.point s.tableau buffer) : p.Exit budget buffer o := by
  cases hreleased : s.isReleased with
  | true =>
    rw [State.ending_eq_ofReleased hreleased, Ending.ofReleased] at hstatus hpoint
    cases hrow : s.tableau.overflowingRow with
    | none =>
      rw [hrow] at hstatus hpoint
      exact .solution s h hreleased (Tableau.overflowingRow_eq_none_iff.1 hrow) hstatus hpoint
    | some row =>
      rw [hrow] at hstatus hpoint
      exact .overflow s h hreleased row (Tableau.isFinite_of_overflowingRow_eq_some hrow) hstatus
        hpoint
  | false =>
    rw [(State.ending_of_unblocked hreleased hstep).1] at hstatus hpoint
    exact .ray s h hreleased hstatus hpoint

/-- **The exits.**  A solve leaves at one of them, for every kind of scalar. -/
theorem exit_run (p : Lcp α n) (settings : Settings) (d : Diagnostics) (workspace : Tableau α n)
    (buffer : Point α n) :
    p.Exit (settings.budget n) buffer (p.run settings d workspace buffer).1 := by
  cases hstart : p.start? with
  | none =>
    have hrun := p.run_of_start_eq_none settings d workspace buffer hstart
    exact .trivial hstart (congrArg Outcome.status hrun) (congrArg Outcome.point hrun)
  | some s =>
    have hstates := p.states_of_start_eq_some hstart (settings.budget n)
    by_cases hlength : (s.trace (settings.budget n)).length ≤ settings.budget n
    · refine EndsIn.exit (s := s.final (settings.budget n)) ⟨?_, ?_⟩ (s.not_pivoted_final hlength)
        ?_ ?_
      · rw [hstates, State.getLast?_trace]
      · rwa [hstates]
      · rw [status_run hstart, if_pos hlength]
      · rw [point_run hstart, if_pos hlength]
    · refine .outOfBudget ?_ ?_ ?_
      · have hbound := s.length_trace_le (settings.budget n)
        rw [hstates]
        omega
      · rw [status_run hstart, if_neg hlength]
      · rw [point_run hstart, if_neg hlength]

/-! ## What is counted -/

/-- A run that ends by itself makes one iteration for each pivot. -/
theorem EndsIn.cost_run {settings : Settings} (h : p.EndsIn (settings.budget n) s) (d : Diagnostics)
    (workspace : Tableau α n) (buffer : Point α n) :
    (p.run settings d workspace buffer).1.cost.iterations = (p.states (settings.budget n)).length ∧
      (p.run settings d workspace buffer).1.cost.pivots =
        (p.states (settings.budget n)).length := by
  rw [iterations_run_eq, cost_pivots_run, pivots_run_eq, List.length_map]
  exact ⟨min_eq_right h.length_le, rfl⟩

/-- A run that is cut short makes one more pivot than it makes iterations. -/
theorem cost_run_of_length_eq (settings : Settings) (d : Diagnostics) (workspace : Tableau α n)
    (buffer : Point α n) (h : (p.states (settings.budget n)).length = settings.budget n + 1) :
    (p.run settings d workspace buffer).1.cost.iterations = settings.budget n ∧
      (p.run settings d workspace buffer).1.cost.pivots = settings.budget n + 1 := by
  rw [iterations_run_eq, cost_pivots_run, pivots_run_eq, List.length_map, h]
  exact ⟨min_eq_left (Nat.le_succ _), rfl⟩

end Lcp

/-! ## Reading off -/

/-- Of each pair of coordinates that are read off one is zero. -/
theorem Basis.Arranged.readOff_eq_zero_or {b : Basis n} {left : Fin (n + 1)} (hb : b.Arranged left)
    (t : Tableau α n) (x : Point α n) (i : Fin n) :
    (b.readOff t x).w.get i = 0 ∨ (b.readOff t x).z.get i = 0 := by
  rw [hb.w_readOff, hb.z_readOff]
  exact Basis.along_eq_zero_or hb _ _ (.w i.castSucc)

/-- The coordinates that are read off are finite if the constants of the rows are. -/
theorem Basis.Arranged.isFinite_readOff [Scalar.WeakOrder α] {b : Basis n} {left : Fin (n + 1)}
    (hb : b.Arranged left) {t : Tableau α n} (ht : ∀ r, Scalar.isFinite (t.constant r) = true)
    (x : Point α n) (i : Fin n) :
    Scalar.isFinite ((b.readOff t x).w.get i) = true ∧
      Scalar.isFinite ((b.readOff t x).z.get i) = true := by
  rw [hb.w_readOff, hb.z_readOff]
  have halong := Basis.forall_along hb (P := fun y : α => Scalar.isFinite y = true) ht
    Scalar.WeakOrder.isFinite_zero left
  exact ⟨halong (.w i.castSucc), halong (.z i.castSucc)⟩

/-! ## The contract -/

/-- What each status promises to a caller. -/
structure Lcp.Contract (p : Lcp α n) (budget : Nat) (o : Outcome α n) : Prop where
  /-- The trivial status tells which problems need no pivot. -/
  trivial_iff : o.status = .trivialSolution ↔ ∀ i, ¬ p.q.get i < 0
  trivial : o.status = .trivialSolution →
    o.point = ⟨p.q, Vector.replicate n 0⟩ ∧ o.cost.iterations = 0 ∧ o.cost.pivots = 0
  nontrivial : o.status = .nontrivialSolution →
    (∀ i, Scalar.isFinite (o.point.w.get i) = true ∧ Scalar.isFinite (o.point.z.get i) = true) ∧
      (∀ i, o.point.w.get i = 0 ∨ o.point.z.get i = 0) ∧
      2 ≤ o.cost.iterations ∧ o.cost.iterations = o.cost.pivots ∧ o.cost.pivots ≤ budget
  noSolution : o.status = .noSolution →
    o.point = Point.zero α n ∧
      1 ≤ o.cost.iterations ∧ o.cost.iterations = o.cost.pivots ∧ o.cost.pivots ≤ budget
  /-- Either the budget is spent or a constant at the end is not finite. -/
  failed : o.status = .failedToConverge →
    o.point = Point.zero α n ∧
      (o.cost.iterations = budget ∧ o.cost.pivots = budget + 1 ∨
        (∃ s r, p.EndsIn budget s ∧ s.isReleased = true ∧
          Scalar.isFinite (s.tableau.constant r) = false) ∧
        2 ≤ o.cost.iterations ∧ o.cost.iterations = o.cost.pivots ∧ o.cost.pivots ≤ budget)

/-- Where every number is finite, only a spent budget is a failure. -/
theorem Lcp.Contract.failed_of_finite {p : Lcp α n} {budget : Nat} {o : Outcome α n}
    (h : p.Contract budget o) (hfinite : ∀ x : α, Scalar.isFinite x = true)
    (hstatus : o.status = .failedToConverge) :
    o.cost.iterations = budget ∧ o.cost.pivots = budget + 1 := by
  refine (h.failed hstatus).2.resolve_right ?_
  rintro ⟨⟨s, r, -, -, hr⟩, -⟩
  rw [hfinite] at hr
  nomatch hr

/-! What an outcome promises is the promise of its status; the others are kept by themselves. -/

namespace Lcp.Contract

variable {p : Lcp α n} {budget : Nat} {o : Outcome α n}

theorem of_trivial (hstatus : o.status = .trivialSolution) (hq : ∀ i, ¬ p.q.get i < 0)
    (h : o.point = ⟨p.q, Vector.replicate n 0⟩ ∧ o.cost.iterations = 0 ∧ o.cost.pivots = 0) :
    p.Contract budget o where
  trivial_iff := iff_of_true hstatus hq
  trivial _ := h
  nontrivial := by simp [hstatus]
  noSolution := by simp [hstatus]
  failed := by simp [hstatus]

theorem of_nontrivial (hstatus : o.status = .nontrivialSolution) (hq : ¬ ∀ i, ¬ p.q.get i < 0)
    (h : (∀ i, Scalar.isFinite (o.point.w.get i) = true ∧
        Scalar.isFinite (o.point.z.get i) = true) ∧
      (∀ i, o.point.w.get i = 0 ∨ o.point.z.get i = 0) ∧
      2 ≤ o.cost.iterations ∧ o.cost.iterations = o.cost.pivots ∧ o.cost.pivots ≤ budget) :
    p.Contract budget o where
  trivial_iff := iff_of_false (by simp [hstatus]) hq
  trivial := by simp [hstatus]
  nontrivial _ := h
  noSolution := by simp [hstatus]
  failed := by simp [hstatus]

theorem of_noSolution (hstatus : o.status = .noSolution) (hq : ¬ ∀ i, ¬ p.q.get i < 0)
    (h : o.point = Point.zero α n ∧
      1 ≤ o.cost.iterations ∧ o.cost.iterations = o.cost.pivots ∧ o.cost.pivots ≤ budget) :
    p.Contract budget o where
  trivial_iff := iff_of_false (by simp [hstatus]) hq
  trivial := by simp [hstatus]
  nontrivial := by simp [hstatus]
  noSolution _ := h
  failed := by simp [hstatus]

theorem of_failed (hstatus : o.status = .failedToConverge) (hq : ¬ ∀ i, ¬ p.q.get i < 0)
    (hpoint : o.point = Point.zero α n)
    (h : o.cost.iterations = budget ∧ o.cost.pivots = budget + 1 ∨
      (∃ s r, p.EndsIn budget s ∧ s.isReleased = true ∧
        Scalar.isFinite (s.tableau.constant r) = false) ∧
      2 ≤ o.cost.iterations ∧ o.cost.iterations = o.cost.pivots ∧ o.cost.pivots ≤ budget) :
    p.Contract budget o where
  trivial_iff := iff_of_false (by simp [hstatus]) hq
  trivial := by simp [hstatus]
  nontrivial := by simp [hstatus]
  noSolution := by simp [hstatus]
  failed _ := ⟨hpoint, h⟩

end Lcp.Contract

variable [Scalar.WeakOrder α]

/-- **The contract of a run.**  One case for each exit. -/
theorem Lcp.contract_run (p : Lcp α n) (hfault : p.fault? = none) (settings : Settings)
    (d : Diagnostics) (workspace : Tableau α n) (buffer : Point α n) :
    p.Contract (settings.budget n) (p.run settings d workspace buffer).1 := by
  obtain ⟨hn, hq, -⟩ := fault?_eq_none_iff.1 hfault
  have hstart_iff := p.start?_eq_none_iff_of_finite hq hn
  cases p.exit_run settings d workspace buffer with
  | trivial hstart hstatus hpoint =>
    have hrun := p.run_of_start_eq_none settings d workspace buffer hstart
    exact .of_trivial hstatus (hstart_iff.1 hstart) ⟨hpoint, by rw [hrun]; rfl, by rw [hrun]; rfl⟩
  | solution s hends hreleased hfinite hstatus hpoint =>
    obtain ⟨hiterations, hpivots⟩ := hends.cost_run d workspace buffer
    have harranged := hends.bookkept.arranged
    refine .of_nontrivial hstatus (hends.start?_ne_none ∘ hstart_iff.2) ?_
    rw [hiterations, hpivots, hpoint]
    exact ⟨harranged.isFinite_readOff hfinite buffer,
      harranged.readOff_eq_zero_or s.tableau buffer, hends.two_le_length hreleased, rfl,
      hends.length_le⟩
  | overflow s hends hreleased row hrow hstatus hpoint =>
    obtain ⟨hiterations, hpivots⟩ := hends.cost_run d workspace buffer
    refine .of_failed hstatus (hends.start?_ne_none ∘ hstart_iff.2) hpoint (Or.inr ?_)
    rw [hiterations, hpivots]
    exact ⟨⟨s, row, hends, hreleased, hrow⟩, hends.two_le_length hreleased, rfl, hends.length_le⟩
  | ray s hends hreleased hstatus hpoint =>
    obtain ⟨hiterations, hpivots⟩ := hends.cost_run d workspace buffer
    refine .of_noSolution hstatus (hends.start?_ne_none ∘ hstart_iff.2) ?_
    rw [hiterations, hpivots]
    exact ⟨hpoint, hends.one_le_length, rfl, hends.length_le⟩
  | outOfBudget hlength hstatus hpoint =>
    have hpivoted : p.start? ≠ none := by
      rw [ne_eq, ← p.states_eq_nil_iff, ← List.length_eq_zero_iff, hlength]
      exact Nat.succ_ne_zero _
    exact .of_failed hstatus (hpivoted ∘ hstart_iff.2) hpoint
      (Or.inl (cost_run_of_length_eq settings d workspace buffer hlength))

/-- **The contract of a solve.**  An acceptable problem gets a result, and the result keeps the
contract, for every scalar type whose finite values are weakly ordered, as those of binary64 and
binary32 numbers and of exact rationals are.  Where every value is finite, as with rationals, a
solve fails only because its budget is spent. -/
theorem Solver.contract_solve (s : Solver α) {p : Problem α} {lcp : Lcp α p.dim}
    (hp : p.sized = .ok lcp) (hfault : lcp.fault? = none) (hs : s.settings.isUsable = true) :
    ∃ o, (s.solve p).1 = .ok o ∧ lcp.Contract (s.settings.budget p.dim) o ∧
      ((∀ x : α, Scalar.isFinite x = true) → o.status = .failedToConverge →
        o.cost.iterations = s.settings.budget p.dim ∧
          o.cost.pivots = s.settings.budget p.dim + 1) := by
  have hcontract := lcp.contract_run hfault s.settings s.diagnostics (s.workspace p.dim)
    (Point.zero α p.dim)
  exact ⟨_, solve_of_fault_eq_none hp hfault hs, hcontract, hcontract.failed_of_finite⟩

/-- Finite binary64 data whose pivots overflow. -/
def overflowing : Lcp Float 2 :=
  ⟨#v[-1e300, -1e300], Dense.ofFn fun i j => if i = j then 1e-300 else 1e300⟩

/-- The run ends by itself after two pivots, but its result is not finite. -/
theorem contract_solve_overflowing :
    ∃ o, ((Solver.new Float {}).solve (.ofLcp overflowing)).1 = .ok o ∧
      overflowing.Contract 4 o ∧ o.status = .failedToConverge ∧ o.point = Point.zero Float 2 ∧
      o.cost.iterations = 2 := by
  have hsized : (Problem.ofLcp overflowing).sized = .ok overflowing := rfl
  have hfault : overflowing.fault? = none := by decide +kernel
  have hstatus : ((Solver.new Float {}).solve (.ofLcp overflowing)).1.toOption.map
      (fun o => (o.status, o.cost.iterations)) = some (.failedToConverge, 2) := by decide +kernel
  obtain ⟨o, ho, hcontract, -⟩ := (Solver.new Float {}).contract_solve hsized hfault rfl
  rw [ho] at hstatus
  obtain ⟨hstatus, hiterations⟩ := Prod.mk.inj (Option.some.inj hstatus)
  exact ⟨o, ho, hcontract, hstatus, (hcontract.failed hstatus).1, hiterations⟩

end Complementarity
