import Complementarity.Proofs.Exits
import Complementarity.Proofs.Reuse
import Complementarity.Proofs.Sizes

/-!
# Observers take no part in a solve

Two observers may follow a solve: the diagnostics, which report its pivots and how it ended, and
the record of the largest entry.  They are fed in the middle of the method, between a pivot and the
next iteration, so it has to be proved that nothing flows back and that nothing is missed.  For
every kind of scalar:

* **nothing flows back** — `Lcp.unobserved_run_eq`, `Solver.unobserved_solve_eq`: two solves with
  the same limit of iterations have the same result, but for the reports and the size;
* **nothing is missed** — `State.reports_run`: a run reports on each of its pivots whose number the
  stride divides, in order, and `Lcp.log_run` adds the one report on how it ended;
* **the size bounds the solution** — `Lcp.bits_le_of_largestBits`: if no number is smaller in size
  than zero, no coordinate of a solution is larger than the largest entry.

`Lcp.Observed` puts together what the observers of one solve say.
-/

namespace Complementarity

variable {α : Type} {n : Nat}

/-! ## Nothing flows back -/

/-- An outcome without what the observers say. -/
def Outcome.unobserved (o : Outcome α n) : Outcome α n where
  status := o.status
  point := o.point
  cost := { iterations := o.cost.iterations, pivots := o.cost.pivots }
  log := []
  pivots := o.pivots

theorem Outcome.unobserved_eq_iff {o o' : Outcome α n} :
    o.unobserved = o'.unobserved ↔ o.status = o'.status ∧ o.point = o'.point ∧
      o.cost.iterations = o'.cost.iterations ∧ o.cost.pivots = o'.cost.pivots ∧
      o.pivots = o'.pivots := by
  simp only [unobserved, Outcome.mk.injEq, Cost.mk.injEq]
  tauto

variable [Scalar α]

/-- **Nothing flows back into a run.**  The settings that observers have may differ, and so may the
tableau and the vectors. -/
theorem Lcp.unobserved_run_eq (p : Lcp α n) {settings settings' : Settings}
    (hlimit : settings.maxIter = settings'.maxIter) (d d' : Diagnostics)
    (workspace workspace' : Tableau α n) (buffer buffer' : Point α n) :
    (p.run settings d workspace buffer).1.unobserved =
      (p.run settings' d' workspace' buffer').1.unobserved := by
  have hbudget : settings.budget n = settings'.budget n := by rw [Settings.budget, hlimit]; rfl
  rw [p.run_fst_eq settings d workspace workspace' buffer buffer']
  cases hstart : p.start? with
  | none =>
    rw [run_of_start_eq_none p settings d workspace' buffer' hstart,
      run_of_start_eq_none p settings' d' workspace' buffer' hstart]
    rfl
  | some s =>
    refine Outcome.unobserved_eq_iff.2 ⟨?_, ?_, ?_, ?_, ?_⟩
    · rw [status_run hstart, status_run hstart, hbudget]
    · rw [point_run hstart, point_run hstart, hbudget]
    · rw [iterations_run hstart, iterations_run hstart, hbudget]
    · rw [cost_pivots_run, cost_pivots_run, pivots_run hstart, pivots_run hstart, hbudget]
    · rw [pivots_run hstart, pivots_run hstart, hbudget]

/-- **Nothing flows back into a solve.**  Whatever two solvers have solved before, and whether or
not the problem is acceptable, they answer alike if they have the same limit of iterations. -/
theorem Solver.unobserved_solve_eq {s s' : Solver α}
    (hlimit : s.settings.maxIter = s'.settings.maxIter) (p : Problem α) :
    (s.solve p).1.map Outcome.unobserved = (s'.solve p).1.map Outcome.unobserved := by
  cases hsized : p.sized with
  | error e => rw [s.solve_of_sized_error hsized, s'.solve_of_sized_error hsized]
  | ok lcp =>
    have hrefusal : lcp.refusal? s.settings = lcp.refusal? s'.settings := by
      rw [Lcp.refusal?, Lcp.refusal?, InputError.ofSettings?, InputError.ofSettings?,
        Settings.isUsable, Settings.isUsable, hlimit]
    rw [solve, solve, hsized]
    dsimp only
    rw [solveSized, solveSized]
    cases h : lcp.refusal? s.settings with
    | some e =>
      rw [s.solveInto_of_refusal _ h, s'.solveInto_of_refusal _ (hrefusal ▸ h)]
    | none =>
      rw [solveInto_of_refusal_eq_none h, solveInto_of_refusal_eq_none (hrefusal ▸ h)]
      exact congrArg Except.ok (lcp.unobserved_run_eq hlimit _ _ _ _ _ _)

/-! ## Nothing is missed -/

omit [Scalar α] in
theorem Diagnostics.traces_iff (d : Diagnostics) (number : Nat) :
    d.traces number = true ↔ d.enabled = true ∧ d.every ∣ number := by
  rw [traces, Bool.and_eq_true, beq_iff_eq, Nat.dvd_iff_mod_eq_zero]

/-- What diagnostics report on pivots that are numbered from `first` on. -/
def Diagnostics.reportsOn (d : Diagnostics) (first : Nat) (pivots : List (Pivot n)) : List Event :=
  ((pivots.zipIdx first).filter fun p => d.traces p.2).map fun p =>
    .pivoted p.2 p.1.row p.1.column (p.2 == 1)

omit [Scalar α] in
theorem Diagnostics.reportsOn_cons (d : Diagnostics) (first : Nat) (p : Pivot n)
    (pivots : List (Pivot n)) :
    d.reportsOn first (p :: pivots) =
      (if d.traces first then [.pivoted first p.row p.column (first == 1)] else []) ++
        d.reportsOn (first + 1) pivots := by
  rw [reportsOn, List.zipIdx_cons, List.filter_cons]
  split <;> rfl

/-- How the run from a state ends within a budget. -/
def State.endingWithin (s : State α n) (budget : Nat) : Ending n :=
  if (s.trace budget).length ≤ budget then (s.final budget).ending else .outOfBudget

theorem Journal.reports_noteAll (d : Diagnostics) (number : Nat) (journal : Journal n)
    (states : List (State α n)) :
    (journal.noteAll d (number + 2) states).reports.reverse =
      journal.reports.reverse ++ d.reportsOn (number + 2) (states.map State.lastPivot) := by
  induction states generalizing number journal with
  | nil => simp [noteAll, Diagnostics.reportsOn]
  | cons s states ih =>
    rw [noteAll, ih (number + 1), List.map_cons, Diagnostics.reportsOn_cons, ← List.append_assoc]
    congr 1
    simp only [note]
    split <;> simp

/-- **The reports of a run** are those on the pivots of its trace, in their order. -/
theorem State.reports_run (d : Diagnostics) (budget iterations : Nat) (s : State α n)
    (journal : Journal n) :
    (s.run d budget iterations journal).journal.reports.reverse =
      journal.reports.reverse ++
        d.reportsOn (iterations + 2) ((s.trace budget).tail.map lastPivot) := by
  rw [run_eq, Journal.reports_noteAll]

namespace Lcp

theorem log_outcomeOfFinish (f : Finish α n) (d : Diagnostics) (budget : Nat)
    (buffer : Point α n) :
    (outcomeOfFinish d budget f buffer).log = f.journal.reports.reverse ++
      if d.enabled then (f.ending.report? budget f.journal.pivots.length).toList else [] := by
  rw [outcomeOfFinish]
  cases f.ending.report? budget f.journal.pivots.length with
  | none => simp
  | some event => cases hd : d.enabled <;> simp [Journal.close, hd]

variable {p : Lcp α n} {settings : Settings} {d : Diagnostics} {workspace : Tableau α n}
  {buffer : Point α n}

/-- **The reports of a solve** that pivots: first on its pivots, and then on how it ended. -/
theorem log_run {s : State α n} (h : p.start? = some s) :
    (p.run settings d workspace buffer).1.log =
      (d.enableIf settings.verbose).reportsOn 1 (p.run settings d workspace buffer).1.pivots ++
        if (d.enableIf settings.verbose).enabled then
          ((s.endingWithin (settings.budget n)).report? (settings.budget n)
            (p.run settings d workspace buffer).1.cost.pivots).toList
        else [] := by
  obtain ⟨rest, hrest⟩ := s.trace_eq_cons (settings.budget n)
  rw [pivots_run h, run_of_start_eq_some p settings d workspace buffer h, log_outcomeOfFinish,
    State.reports_run, State.ending_run, State.endingWithin, hrest, List.map_cons,
    Diagnostics.reportsOn_cons]
  congr 1
  -- the first pivot is reported before the loop begins
  simp only [Journal.note]
  split <;> simp [Journal.blank, State.lastPivot]

/-- The reports that close the log of a solve with a given outcome. -/
inductive Closes (p : Lcp α n) (budget : Nat) (o : Outcome α n) : List Event → Prop
  /-- A solution needs no report. -/
  | solution (hstatus : o.status = .nontrivialSolution) : Closes p budget o []
  /-- The last state has no row that blocks the driving variable. -/
  | ray (s : State α n) (hends : p.EndsIn budget s)
      (hrow : s.tableau.blockingRow s.driving = none) (hstatus : o.status = .noSolution) :
      Closes p budget o [.unblocked s.driving o.cost.pivots n]
  /-- The artificial variable has left, and this is the first row whose constant is not finite. -/
  | overflow (s : State α n) (hends : p.EndsIn budget s) (row : Fin n)
      (hrow : s.tableau.overflowingRow = some row) (hstatus : o.status = .failedToConverge) :
      Closes p budget o [.overflowed row n o.cost.pivots]
  /-- The budget is spent, after one more pivot than it has iterations. -/
  | outOfBudget (hcount : o.cost.pivots = budget + 1) (hstatus : o.status = .failedToConverge) :
      Closes p budget o [.outOfBudget budget n o.cost.pivots]

/-- A run that ends in a state is closed by the report on the ending of that state. -/
theorem EndsIn.closes {budget : Nat} {s : State α n} {o : Outcome α n} (h : p.EndsIn budget s)
    (hstep : ∀ next, s.step ≠ .pivoted next) (hstatus : o.status = s.ending.status) :
    p.Closes budget o (s.ending.report? budget o.cost.pivots).toList := by
  cases hreleased : s.isReleased with
  | true =>
    rw [State.ending_eq_ofReleased hreleased, Ending.ofReleased] at hstatus ⊢
    cases hrow : s.tableau.overflowingRow with
    | none =>
      rw [hrow] at hstatus
      exact .solution hstatus
    | some row =>
      rw [hrow] at hstatus
      exact .overflow s h row hrow hstatus
  | false =>
    obtain ⟨hending, hrow⟩ := State.ending_of_unblocked hreleased hstep
    rw [hending] at hstatus ⊢
    exact .ray s h hrow hstatus

/-- **The closing report.**  A run that its budget cuts short says so, and any other one reports on
the ending of its last state. -/
theorem closes_run {s : State α n} (h : p.start? = some s) :
    p.Closes (settings.budget n) (p.run settings d workspace buffer).1
      ((s.endingWithin (settings.budget n)).report? (settings.budget n)
        (p.run settings d workspace buffer).1.cost.pivots).toList := by
  have hstates := p.states_of_start_eq_some h (settings.budget n)
  rw [State.endingWithin]
  by_cases hlength : (s.trace (settings.budget n)).length ≤ settings.budget n
  · rw [if_pos hlength]
    refine EndsIn.closes ⟨?_, ?_⟩ (s.not_pivoted_final hlength) ?_
    · rw [hstates, State.getLast?_trace]
    · rwa [hstates]
    · rw [status_run h, if_pos hlength]
  · have hcount : (p.states (settings.budget n)).length = settings.budget n + 1 := by
      have hbound := s.length_trace_le (settings.budget n)
      rw [hstates]
      omega
    rw [if_neg hlength]
    refine .outOfBudget (cost_run_of_length_eq settings d workspace buffer hcount).2 ?_
    rw [status_run h, if_neg hlength]

end Lcp

/-! ## The size bounds the solution -/

/-- No number is smaller in size than zero. -/
class Scalar.SmallZero (α : Type) [Scalar α] : Prop where
  bits_zero_le : ∀ x : α, Scalar.bits (0 : α) ≤ Scalar.bits x

/-- Zero as a fraction has no binary digit above the line and one below, as every fraction has. -/
instance : Scalar.SmallZero ℚ where
  bits_zero_le x := by
    have hzero : Scalar.bits (0 : ℚ) = 1 := rfl
    have hden : 1 ≤ bitLength x.den := by
      rw [bitLength, if_neg x.den_nz]
      exact Nat.le_add_left 1 _
    rw [hzero]
    exact hden.trans (Nat.le_add_left _ _)

instance : Scalar.SmallZero Float where
  bits_zero_le _ := le_rfl

instance : Scalar.SmallZero Float32 where
  bits_zero_le _ := le_rfl

namespace Lcp

variable (p : Lcp α n)

/-- Every entry of every tableau is looked at. -/
theorem entry_mem_observed {budget : Nat} {s : State α n} (hs : s ∈ p.states budget) (r : Fin n)
    (c : Fin (2 * n + 2)) : s.tableau.entry r c ∈ p.observed budget := by
  obtain ⟨first, hstart, hs⟩ := p.mem_states_iff.1 hs
  rw [observed, hstart, Option.elim_some, List.mem_flatMap]
  exact ⟨s, hs, Tableau.mem_entries_iff.2 ⟨r, c, rfl⟩⟩

/-- An entry of `q` is looked at if the solve does not pivot. -/
theorem get_q_mem_observed (hstart : p.start? = none) (budget : Nat) (i : Fin n) :
    p.q.get i ∈ p.observed budget := by
  rw [observed, hstart, Option.elim_none, Vector.mem_toList_iff]
  exact Vector.getElem_mem i.isLt

variable {p} {settings : Settings} {d : Diagnostics} {workspace : Tableau α n} {buffer : Point α n}

/-- What a solve has looked at is no larger than the size that it reports. -/
theorem bits_le_of_mem_observed {bound : Nat} {x : α}
    (hbound : (p.run settings d workspace buffer).1.cost.largestBits = some bound)
    (hx : x ∈ p.observed (settings.budget n)) : Scalar.bits x ≤ bound := by
  rw [largestBits_run_eq] at hbound
  split at hbound
  · obtain rfl := Option.some.inj hbound
    exact ((SizeRecord.maxBits_observe_le_iff _ _ _).1 le_rfl).2 x hx
  · exact absurd hbound (Option.some_ne_none bound).symm

/-- **The size bounds the solution.**  What is read off are entries that have been looked at, and
zeros. -/
theorem bits_le_of_largestBits [Scalar.SmallZero α] (hn : 0 < n) {bound : Nat}
    (hbound : (p.run settings d workspace buffer).1.cost.largestBits = some bound)
    (hsolved : (p.run settings d workspace buffer).1.status.isSolved = true) (i : Fin n) :
    Scalar.bits ((p.run settings d workspace buffer).1.point.w.get i) ≤ bound ∧
      Scalar.bits ((p.run settings d workspace buffer).1.point.z.get i) ≤ bound := by
  cases p.exit_run settings d workspace buffer with
  | trivial hstart hstatus hpoint =>
    have hq := bits_le_of_mem_observed hbound (p.get_q_mem_observed hstart _ i)
    rw [hpoint]
    refine ⟨hq, ?_⟩
    have hz : (Vector.replicate n (0 : α)).get i = 0 := Vector.getElem_replicate i.isLt
    rw [hz]
    exact (Scalar.SmallZero.bits_zero_le _).trans hq
  | solution s hends hreleased hfinite hstatus hpoint =>
    have hconstant : ∀ r, Scalar.bits (s.tableau.constant r) ≤ bound := fun r =>
      bits_le_of_mem_observed hbound (p.entry_mem_observed hends.mem r _)
    have hzero : Scalar.bits (0 : α) ≤ bound :=
      (Scalar.SmallZero.bits_zero_le _).trans (hconstant ⟨0, hn⟩)
    have harranged := hends.bookkept.arranged
    have halong := Basis.forall_along harranged (P := fun x : α => Scalar.bits x ≤ bound) hconstant
      hzero s.column
    rw [hpoint, harranged.w_readOff, harranged.z_readOff]
    exact ⟨halong (.w i.castSucc), halong (.z i.castSucc)⟩
  | overflow s hends hreleased row hrow hstatus hpoint => simp [hstatus, Status.isSolved] at hsolved
  | ray s hends hreleased hstatus hpoint => simp [hstatus, Status.isSolved] at hsolved
  | outOfBudget hlength hstatus hpoint => simp [hstatus, Status.isSolved] at hsolved

end Lcp

/-! ## What the observers say -/

/-- One report for each pivot whose number the stride divides, with its row and its column. -/
def Outcome.reportsEvery (o : Outcome α n) (stride : Nat) : List Event :=
  ((o.pivots.zipIdx 1).filter fun p => stride ∣ p.2).map fun p =>
    .pivoted p.2 p.1.row p.1.column (p.2 == 1)

omit [Scalar α] in
theorem Diagnostics.reportsOn_eq {d : Diagnostics} (h : d.enabled = true) (o : Outcome α n) :
    d.reportsOn 1 o.pivots = o.reportsEvery d.every := by
  have htraces : ∀ p : Pivot n × Nat, d.traces p.2 = decide (d.every ∣ p.2) := fun p => by
    rw [Bool.eq_iff_iff, d.traces_iff, decide_eq_true_iff]
    exact and_iff_right h
  rw [reportsOn, Outcome.reportsEvery, List.filter_congr fun p _ => htraces p]

omit [Scalar α] in
theorem Diagnostics.reportsOn_eq_nil {d : Diagnostics} (h : d.enabled = false) (first : Nat)
    (pivots : List (Pivot n)) : d.reportsOn first pivots = [] := by
  simp [reportsOn, traces, h]

/-- What the observers of a solve say about it. -/
structure Lcp.Observed (p : Lcp α n) (settings : Settings) (d : Diagnostics) (o : Outcome α n) :
    Prop where
  /-- The pivots are those of the states that the solve passes through. -/
  pivots_eq : o.pivots = (p.states (settings.budget n)).map State.lastPivot
  count_eq : o.cost.pivots = o.pivots.length
  silent : d.enabled = false ∧ settings.verbose = false ∨ o.status = .trivialSolution → o.log = []
  /-- The reports on the pivots come first, and nothing is between them and the closing one. -/
  log_eq : d.enabled = true ∨ settings.verbose = true → o.status ≠ .trivialSolution →
    ∃ closing, o.log = o.reportsEvery d.every ++ closing ∧ p.Closes (settings.budget n) o closing
  largestBits_eq_none_iff : o.cost.largestBits = none ↔ settings.recordSizes = false
  bits_le : ∀ bound, o.cost.largestBits = some bound → o.status.isSolved = true →
    ∀ i, Scalar.bits (o.point.w.get i) ≤ bound ∧ Scalar.bits (o.point.z.get i) ≤ bound

/-- A solve that pivots does not end with the trivial status. -/
theorem Lcp.status_run_ne_trivialSolution {p : Lcp α n} {s : State α n} (h : p.start? = some s)
    (settings : Settings) (d : Diagnostics) (workspace : Tableau α n) (buffer : Point α n) :
    (p.run settings d workspace buffer).1.status ≠ .trivialSolution := by
  rw [status_run h]
  split
  · cases (s.final (settings.budget n)).ending <;> nofun
  · nofun

/-- **The observers of a run.** -/
theorem Lcp.observed_run [Scalar.SmallZero α] (p : Lcp α n) (hn : 0 < n) (settings : Settings)
    (d : Diagnostics) (workspace : Tableau α n) (buffer : Point α n) :
    p.Observed settings d (p.run settings d workspace buffer).1 := by
  refine ⟨pivots_run_eq .., cost_pivots_run, ?_, ?_, ?_, fun bound hbound hsolved =>
    bits_le_of_largestBits hn hbound hsolved⟩
  · intro hsilent
    cases hstart : p.start? with
    | none =>
      rw [run_of_start_eq_none p settings d workspace buffer hstart]
      rfl
    | some s =>
      obtain ⟨hd, hverbose⟩ := hsilent.resolve_right
        (status_run_ne_trivialSolution hstart settings d workspace buffer)
      have hoff : (d.enableIf settings.verbose).enabled = false := by
        rw [Diagnostics.enableIf, hd, hverbose]
        rfl
      rw [log_run hstart, Diagnostics.reportsOn_eq_nil hoff, hoff, if_neg Bool.false_ne_true,
        List.nil_append]
  · intro hon hstatus
    have hon : (d.enableIf settings.verbose).enabled = true := by
      rw [Diagnostics.enableIf, Bool.or_eq_true]
      exact hon
    cases hstart : p.start? with
    | none =>
      rw [run_of_start_eq_none p settings d workspace buffer hstart] at hstatus
      exact absurd rfl hstatus
    | some s =>
      refine ⟨_, ?_, closes_run hstart⟩
      rw [log_run hstart, if_pos hon, Diagnostics.reportsOn_eq hon]
      rfl
  · rw [largestBits_run_eq]
    cases settings.recordSizes <;> simp

/-- **Observers take no part in a solve.**  Two solvers with the same limit of iterations give the
same answer to every problem, be it a refusal or a result, but for what their observers say; and
what these say of an acceptable problem is complete: the log has one report for each pivot whose
number the stride divides and one that closes it, and the size bounds every coordinate of a
solution.  A solver that an environment has made never has a stride of zero
(`Diagnostics.ofEnvironment_every_pos`). -/
theorem Solver.solve_observed [Scalar.SmallZero α] {s s' : Solver α}
    (hlimit : s.settings.maxIter = s'.settings.maxIter) (p : Problem α) :
    (s.solve p).1.map Outcome.unobserved = (s'.solve p).1.map Outcome.unobserved ∧
      ∀ {lcp : Lcp α p.dim}, p.sized = .ok lcp → lcp.fault? = none → s.settings.isUsable = true →
        ∃ o o', (s.solve p).1 = .ok o ∧ (s'.solve p).1 = .ok o' ∧
          o'.status = o.status ∧ o'.point = o.point ∧
          o'.cost.iterations = o.cost.iterations ∧ o'.cost.pivots = o.cost.pivots ∧
          o'.pivots = o.pivots ∧
          lcp.Observed s.settings s.diagnostics o ∧ lcp.Observed s'.settings s'.diagnostics o' := by
  refine ⟨unobserved_solve_eq hlimit p, fun {lcp} hp hfault hs => ?_⟩
  have hs' : s'.settings.isUsable = true := by rwa [Settings.isUsable, ← hlimit]
  have hn : 0 < p.dim := (Lcp.fault?_eq_none_iff.1 hfault).1
  have hsame := lcp.unobserved_run_eq hlimit s.diagnostics s'.diagnostics (s.workspace p.dim)
    (s'.workspace p.dim) (Point.zero α p.dim) (Point.zero α p.dim)
  obtain ⟨hstatus, hpoint, hiterations, hcount, hpivots⟩ := Outcome.unobserved_eq_iff.1 hsame.symm
  exact ⟨_, _, solve_of_fault_eq_none hp hfault hs, solve_of_fault_eq_none hp hfault hs', hstatus,
    hpoint, hiterations, hcount, hpivots, lcp.observed_run hn .., lcp.observed_run hn ..⟩

/-- One solver reports every second pivot and records sizes, the other one does neither. -/
theorem solve_observed_tied :
    ∃ o o', ((Solver.fresh ℚ { recordSizes := true } ⟨true, 2⟩).solve (.ofLcp tied)).1 = .ok o ∧
      ((Solver.new ℚ {}).solve (.ofLcp tied)).1 = .ok o' ∧ o.status = .nontrivialSolution ∧
      o'.status = o.status ∧ o'.point = o.point ∧ o'.log = [] ∧ o.log = o.reportsEvery 2 ∧
      o.log.length = 1 := by
  let s := Solver.fresh ℚ { recordSizes := true } ⟨true, 2⟩
  have hsized : (Problem.ofLcp tied).sized = .ok tied := rfl
  have hrun : (s.solve (.ofLcp tied)).1.toOption.map (fun o => (o.status, o.log.length)) =
      some (.nontrivialSolution, 1) := by decide +kernel
  have hlimit : s.settings.maxIter = (Solver.new ℚ {}).settings.maxIter := rfl
  obtain ⟨-, hobserved⟩ := Solver.solve_observed hlimit (.ofLcp tied)
  obtain ⟨o, o', ho, ho', hstatus, hpoint, -, -, -, hsays, hsays'⟩ :=
    hobserved hsized (by decide +kernel) (by decide)
  rw [ho] at hrun
  obtain ⟨hsolved, hlength⟩ := Prod.mk.inj (Option.some.inj hrun)
  have hsolved : o.status = .nontrivialSolution := hsolved
  obtain ⟨closing, hlog, hcloses⟩ := hsays.log_eq (.inl rfl) (by rw [hsolved]; nofun)
  have hclosing : closing = [] := by
    cases hcloses <;> simp_all
  refine ⟨o, o', ho, ho', hsolved, hstatus, hpoint, hsays'.silent (.inl ⟨rfl, rfl⟩), ?_, hlength⟩
  rw [hlog, hclosing, List.append_nil]
  rfl

end Complementarity
