import Complementarity.Proofs.Exits
import Complementarity.Proofs.Guarded
import Complementarity.Proofs.Refusals
import Complementarity.Proofs.Reuse

/-!
# No solve fails but by a refusal

The method on plain numbers checks every access, every division and every remainder (`Guarded.run`).
What is proved here, for every kind of scalar in which negative numbers have reciprocals:

* **an iteration** — `State.step_of`: it passes all its checks and comes to what `State.step` comes
  to, whatever has been left in the buffers;
* **a run** — `State.run_of`, `run_of`: by induction on the budget, it passes its checks to the end,
  since the bookkeeping stays in order, and its result is that of `Lcp.run`;
* **the data** — `validate_eq`: validation looks at entries that there are;
* **a history** — `Solver.performAll_eq`: a solver that an environment has made can be asked
  anything.

`Solver.solve_total` puts this together with the order of the errors.
-/

namespace Complementarity.Guarded

variable {α : Type} {n : Nat}

/-! ## An iteration -/

/-- A state of a run in plain terms. -/
def State.of (s : Complementarity.State α n) (b : Buffers α) (j : Journal n) : State α n :=
  ⟨s.tableau, .of s.basis, s.row, s.column, b, .of j⟩

/-- A result in plain terms. -/
def Result.of (o : Outcome α n) : Result α := ⟨o.status, .of o.point, o.cost, o.log⟩

namespace State

variable (s : Complementarity.State α n) (b : Buffers α) (j : Journal n)

theorem exchange_of : (of s b j).records.exchange (of s b j).row (of s b j).column =
    .ok (.of s.current, s.driving.val) :=
  Records.exchange_of s.basis s.row s.column

/-- The record of the variable that has just left tells whether it is artificial. -/
theorem readAt_left (fault : Fault) :
    ∃ left, readAt (Records.of s.current).nonbasic s.column fault = .ok left ∧
      (left.slot.index = n ↔ s.isReleased = true) := by
  refine ⟨_, Records.readAt_nonbasic s.current s.column fault, ?_⟩
  rw [Complementarity.State.isReleased, Variable.isArtificial, decide_eq_true_iff, Fin.ext_iff]
  exact Eq.congr_left (Slot.index_of _)

variable [Scalar α] [Scalar.NegativeDivisors α] {d : Diagnostics} {b}

/-- **An iteration** passes its checks, and comes to what it should. -/
theorem step_of (hstride : 0 < d.every) (hb : Sized n b) :
    (∃ basis, s.step = .released basis ∧ (of s b j).step d = .ok (.released (.of basis))) ∨
      (∃ column b', s.step = .unblocked column ∧
        (of s b j).step d = .ok (.unblocked (.of s.current) column b')) ∨
      ∃ next b', Sized n b' ∧ s.step = .pivoted next ∧
        (of s b j).step d = .ok (.pivoted (of next b'
          (j.note d (j.pivots.length + 1) next.lastPivot false next.tableau))) := by
  obtain ⟨left, hleft, hindex⟩ := readAt_left s (.placeOutOfRange s.column)
  obtain ⟨scan, hscan, hsized, hbest⟩ := scanBlocking_eq s.tableau s.driving hb
  rw [step, exchange_of, ok_bind]
  dsimp only [of]
  rw [hleft, ok_bind]
  -- the record that the exchange has just written tells whether the artificial variable has left
  by_cases hreleased : s.isReleased = true
  · rw [if_pos (hindex.2 hreleased)]
    exact .inl ⟨s.current, State.step_eq_released_iff.2 ⟨hreleased, rfl⟩, rfl⟩
  · rw [if_neg fun h => hreleased (hindex.1 h), hscan, ok_bind, hbest]
    rw [Bool.not_eq_true] at hreleased
    cases hrow : s.tableau.blockingRow s.driving with
    | none =>
      exact .inr (.inl ⟨s.driving, scan.toBuffers,
        State.step_eq_unblocked_iff.2 ⟨hreleased, hrow, rfl⟩, rfl⟩)
    | some row =>
      -- the pivot is taken where the ratio test has found a negative coefficient
      have hdivisor : Scalar.isDivisor (s.tableau.entry row
          (Tableau.coefficientColumn s.driving)) = true :=
        Scalar.NegativeDivisors.isDivisor_of_neg _ (coefficient_neg_of_blockingRow hrow)
      have hpivot : Tableau.InPlace.pivot s.tableau row s.driving =
          .ok (s.pivotAt row).tableau := Tableau.InPlace.pivot_eq s.tableau row _ hdivisor
      have hnotes := Notes.pivot_of hstride j row s.driving false (s.pivotAt row).tableau
      rw [Option.map_some]
      dsimp only
      rw [hpivot, onTableau_ok, ok_bind, hnotes, ok_bind]
      exact .inr (.inr ⟨s.pivotAt row, scan.toBuffers, hsized,
        State.step_eq_pivoted_iff.2 ⟨hreleased, row, hrow, rfl⟩, rfl⟩)

end State

/-! ## A run -/

section Endings

variable [Scalar α] (s : Complementarity.State α n) (b : Buffers α) (j : Journal n)
  (d : Diagnostics) (x : Point α n)

/-- The result at an end on which there is a report. -/
theorem result_fail (status : Status) (iterations : Nat) (records : Records) (event : Event) :
    ((State.of s b j).fail d status iterations records (.of x) event).result =
      ⟨status, .of (Point.zero α n), ⟨iterations, j.pivots.length, j.maxBits⟩,
        (j.close d event).reports.reverse⟩ := by
  rw [State.fail, Ended.result, Output.cleared_of]
  dsimp only [State.of]
  rw [Notes.close_of, Journal.close]
  split <;> rfl

theorem of_outcomeOfFinish {ending : Ending n} {limit : Nat} {event : Event}
    (hreport : ending.report? limit j.pivots.length = some event) (iterations : Nat)
    (t : Tableau α n) :
    Result.of (Lcp.outcomeOfFinish d limit ⟨ending, iterations, t, j⟩ x) =
      ⟨ending.status, .of (Point.zero α n), ⟨iterations, j.pivots.length, j.maxBits⟩,
        (j.close d event).reports.reverse⟩ := by
  have hbits : (j.close d event).maxBits = j.maxBits := by
    rw [Journal.close]
    split <;> rfl
  rw [Result.of, Lcp.outcomeOfFinish]
  dsimp only
  rw [hreport]
  dsimp only
  rw [hbits]
  cases ending with
  | solution basis => cases hreport
  | overflow row => rfl
  | ray column => rfl
  | outOfBudget => rfl

end Endings

namespace State

/-- No row has the artificial variable or its partner once it has been released. -/
theorem proper_of_isReleased {s : Complementarity.State α n} (hs : s.Bookkept)
    (hreleased : s.isReleased = true) (r : Fin n) : (s.current.inRow r).isArtificial = false := by
  rw [Bool.eq_false_iff, ne_eq, Variable.isArtificial_iff]
  rintro (hr | hr)
  · exact hs.arranged.inRow_ne_inColumn r s.column (hr.trans (hs.isReleased_iff.1 hreleased).symm)
  · exact hs.arranged.inRow_ne_formal r hr

variable [Scalar α] {d : Diagnostics}

/-- The end of a run whose artificial variable has left. -/
theorem release_of {s : Complementarity.State α n} (hs : s.Bookkept)
    (hreleased : s.isReleased = true) (b : Buffers α) (j : Journal n) (limit iterations : Nat)
    (x : Point α n) :
    ∃ e, (of s b j).release d iterations (.of s.current) (.of x) = .ok e ∧
      e.result = .of (Lcp.outcomeOfFinish d limit
        ⟨.ofReleased s.tableau s.current, iterations, s.tableau, j⟩ x) := by
  have hsearch : overflowingRow (of s b j).tableau = .ok (s.tableau.overflowingRow.map Fin.val) :=
    overflowingRow_eq s.tableau
  rw [release, hsearch, ok_bind, Ending.ofReleased]
  cases s.tableau.overflowingRow with
  | some row =>
    refine ⟨_, rfl, ?_⟩
    rw [result_fail, of_outcomeOfFinish j d x rfl]
    rfl
  | none =>
    have hsolution : (Records.of s.current).readOff (of s b j).tableau (.of x) =
        .ok (.of (s.current.readOff s.tableau x)) :=
      Records.readOff_of s.current s.tableau x (proper_of_isReleased hs hreleased)
    rw [Option.map_none]
    dsimp only
    rw [hsolution]
    exact ⟨_, rfl, rfl⟩

variable [Scalar.NegativeDivisors α]

/-- **A run** passes its checks to the end, and its result is what it should be. -/
theorem run_of (hstride : 0 < d.every) (limit : Nat) (x : Point α n) (budget iterations : Nat)
    (s : Complementarity.State α n) (b : Buffers α) (j : Journal n) (hs : s.Bookkept)
    (hb : Sized n b) (hcount : j.pivots.length = iterations + 1) :
    ∃ e, (of s b j).run d limit budget iterations (.of x) = .ok e ∧
      e.result = .of (Lcp.outcomeOfFinish d limit (s.run d budget iterations j) x) := by
  induction budget generalizing iterations s b j with
  | zero =>
    refine ⟨_, rfl, ?_⟩
    rw [Complementarity.State.run, of_outcomeOfFinish j d x rfl]
    exact result_fail s b j d x _ iterations _ _
  | succ budget ih =>
    rw [run]
    rcases step_of s j hstride hb with ⟨basis, hstep, hguarded⟩ |
      ⟨column, b', hstep, hguarded⟩ | ⟨next, b', hb', hstep, hguarded⟩
    · obtain ⟨hreleased, rfl⟩ := State.step_eq_released_iff.1 hstep
      rw [hguarded, ok_bind, Complementarity.State.run, hstep]
      exact release_of hs hreleased b j limit (iterations + 1) x
    · rw [hguarded, ok_bind, Complementarity.State.run, hstep]
      refine ⟨_, rfl, ?_⟩
      rw [of_outcomeOfFinish j d x rfl]
      exact result_fail s b' j d x _ (iterations + 1) _ _
    · have hnext : next.Bookkept := by
        obtain ⟨hreleased, row, -, rfl⟩ := State.step_eq_pivoted_iff.1 hstep
        exact hs.pivotAt hreleased row
      -- the budget left, the bookkeeping and the buffers are as the rest of the run needs them
      rw [hguarded, ok_bind, State.run_succ_of_pivoted d budget iterations j hstep, hcount]
      exact ih (iterations + 1) next b' _ hnext hb' (congrArg Nat.succ hcount)

end State

/-! ## The method -/

section Method

variable [Scalar α]

/-- A workspace of the right size, with any contents. -/
structure Workspace.IsFitted (workspace : Workspace α n) : Prop where
  basic : workspace.records.basic.size = n + 1
  nonbasic : workspace.records.nonbasic.size = n + 1
  lowest : workspace.lowest.length = n + 1
  ratio : workspace.ratio.length = n + 1
  leastRatio : workspace.leastRatio.length = n + 1

theorem length_fittedPolynomial (polynomial : List α) (n : Nat) :
    (fittedPolynomial polynomial n).length = n + 1 := by
  rw [fittedPolynomial, List.length_take, List.length_append, List.length_replicate]
  omega

/-- **A workspace of any other size** is fitted before a solve. -/
theorem Workspace.isFitted_fitted {m : Nat} (workspace : Workspace α m) (n : Nat) :
    (workspace.fitted n).IsFitted where
  basic := workspace.records.size_fitted.1
  nonbasic := workspace.records.size_fitted.2
  lowest := length_fittedPolynomial _ n
  ratio := length_fittedPolynomial _ n
  leastRatio := length_fittedPolynomial _ n

variable [Scalar.NegativeDivisors α] (p : Lcp α n) (settings : Settings) {d : Diagnostics}

/-- **The method** passes its checks once it pivots. -/
theorem pivotFrom_eq (hstride : 0 < d.every) (perturbed : Tableau α n) {records : Records}
    (hbasic : records.basic.size = n + 1) (hnonbasic : records.nonbasic.size = n + 1)
    {b : Buffers α} (hb : Sized n b) (row : Fin n) (x : Point α n) :
    ∃ e, pivotFrom perturbed (.ofDense p.m) records b settings d row (.of x) = .ok e ∧
      e.result = .of (Lcp.outcomeOfFinish d (settings.budget n)
        (p.pivotFrom settings d perturbed row) x) := by
  have hnotes := Notes.pivot_of hstride (Journal.blank settings.recordSizes) row (Fin.last n) true
    ((perturbed.withMatrix p.m).enterArtificial row)
  have hrun := State.run_of hstride (settings.budget n) x (settings.budget n) 0
    (State.start (perturbed.withMatrix p.m) row) b
    ((Journal.blank settings.recordSizes : Journal n).note d 1 ⟨row, Fin.last n⟩ true
      ((perturbed.withMatrix p.m).enterArtificial row)) (State.bookkept_start _ row) hb rfl
  rw [pivotFrom, Tableau.InPlace.loadMatrix_eq, onTableau_ok, ok_bind,
    Records.reset_eq hbasic hnonbasic, ok_bind, Tableau.InPlace.enterArtificial_eq, onTableau_ok,
    ok_bind]
  change ∃ e, ((Notes.of (Journal.blank settings.recordSizes : Journal n)).pivot d row (Fin.last n)
    true ((perturbed.withMatrix p.m).enterArtificial row) >>= _) = .ok e ∧ _
  rw [hnotes, ok_bind]
  exact hrun

/-- **The method** passes its checks, and its result is what it should be. -/
theorem run_of (hn : 0 < n) {workspace : Workspace α n} (hfitted : workspace.IsFitted)
    (hstride : 0 < d.every) (x : Point α n) :
    ∃ workspace', run workspace p.q.toArray (.ofDense p.m) settings d (.of x) =
      .ok (.of (p.run settings d workspace.tableau x).1, workspace') := by
  have hstride : 0 < (d.enableIf settings.verbose).every := hstride
  have hb : Sized n ⟨workspace.lowest, workspace.ratio⟩ := ⟨hfitted.lowest, hfitted.ratio⟩
  obtain ⟨scan, hscan, hsized, hincumbent⟩ :=
    scanLowest_eq (workspace.tableau.withPerturbation p.q) hn hb
  rw [run, Tableau.InPlace.loadPerturbation_eq, onTableau_ok, ok_bind, hscan, ok_bind, Lcp.run]
  cases hlowest : (workspace.tableau.withPerturbation p.q).lowestRow with
  | none =>
    rw [hlowest] at hincumbent
    have hbest : scan.best = none := Option.map_eq_none_iff.1 hincumbent
    rw [hbest, Option.filter_none, Option.filter_none]
    dsimp only
    rw [Output.copied_of, ok_bind]
    exact ⟨_, rfl⟩
  | some lowest =>
    obtain ⟨row, least⟩ := lowest
    rw [hlowest] at hincumbent
    obtain ⟨i, hbest, hfound⟩ := Option.map_eq_some_iff.1 hincumbent
    obtain ⟨rfl, hheld⟩ := Prod.mk.inj hfound
    rw [hbest, hheld, Option.filter_some, Option.filter_some]
    cases lexNeg least with
    | false =>
      dsimp only
      rw [if_neg Bool.false_ne_true]
      dsimp only
      rw [Output.copied_of, ok_bind]
      exact ⟨_, rfl⟩
    | true =>
      have hbuffers : Sized n ⟨workspace.leastRatio, scan.trial⟩ := ⟨hfitted.leastRatio, hsized.2⟩
      obtain ⟨e, he, hresult⟩ := pivotFrom_eq p settings hstride
        (workspace.tableau.withPerturbation p.q) hfitted.basic hfitted.nonbasic hbuffers row x
      rw [if_pos rfl]
      dsimp only
      rw [he, ok_bind, hresult]
      exact ⟨_, rfl⟩

end Method

/-! ## The data -/

section Data

variable [Scalar α]

/-- The search of a matrix of the right shape. -/
theorem findSomeM?_entryOf (m : Dense α n n) :
    (List.range n).findSomeM? (fun r => (List.range n).findSomeM? fun c => do
      let x ← onTableau (Tableau.InPlace.entryOf (.ofDense m) r c)
      return if Scalar.isFinite x then none else some (InputError.nonFiniteMatrix r c)) =
    .ok ((List.finRange n).findSome? fun r => (List.finRange n).findSome? fun c =>
      if Scalar.isFinite (m.entry r c) then none else some (InputError.nonFiniteMatrix r c)) := by
  rw [← List.map_coe_finRange_eq_range]
  refine findSomeM?_map_eq_ok Fin.val fun r _ => findSomeM?_map_eq_ok Fin.val fun c _ => ?_
  rw [Tableau.InPlace.entryOf_ofDense]
  rfl

/-- **Validation** looks at entries that there are, and finds what is wrong with the data. -/
theorem validate_eq (p : Problem α) : validate p = .ok p.fault? := by
  rw [validate]
  by_cases hdim : p.q.size = 0
  · rw [if_pos hdim, Problem.fault?_of_dim_eq_zero (p := p) hdim]
    rfl
  rw [if_neg hdim]
  by_cases hrows : p.m.rows = p.q.size
  · rw [if_neg (not_not_intro hrows)]
    by_cases hcols : p.m.cols = p.q.size
    · rw [if_neg (not_not_intro hcols)]
      obtain ⟨q, rows, cols, cells⟩ := p
      obtain rfl : rows = q.size := hrows
      obtain rfl : cols = q.size := hcols
      rw [Problem.fault?_of_wellShaped q cells (Nat.pos_of_ne_zero hdim), Lcp.firstNonFinite?]
      dsimp only
      rw [findIdx?_toArray (⟨q, rfl⟩ : Vector α q.size)]
      cases (List.finRange q.size).find? fun r =>
        !Scalar.isFinite ((⟨q, rfl⟩ : Vector α q.size).get r) with
      | some r => rfl
      | none =>
        refine (findSomeM?_entryOf cells).trans (congrArg Except.ok ?_)
        simp only [findSome?_eq_map_find?, map_coe]
    · rw [if_pos hcols, Problem.fault?_of_cols_ne (p := p) hdim hrows hcols]
      rfl
  · rw [if_pos hrows, Problem.fault?_of_rows_ne (p := p) hdim hrows]
    rfl

end Data

/-! ## Solvers -/

namespace Solver

variable [Scalar α] [Scalar.NegativeDivisors α]

/-- **A solve** passes its checks whatever the workspace holds, and the answer is that of a solver
that is fresh. -/
theorem solve_eq (s : Solver α) (hstride : 0 < s.diagnostics.every) (p : Problem α) :
    ∃ s', s.solve p = .ok
        (((Complementarity.Solver.fresh α s.settings s.diagnostics).solve p).1.map Result.of, s') ∧
      s'.settings = s.settings ∧ s'.diagnostics = s.diagnostics := by
  rw [solve, validate_eq, ok_bind, ← Problem.refusal?]
  cases hrefusal : p.refusal? s.settings with
  | some e =>
    have herror : ((Complementarity.Solver.fresh α s.settings s.diagnostics).solve p).1 =
        .error e := Solver.solve_fst_eq_error_iff _ |>.2 (Problem.refusal?_eq_some_iff.1 hrefusal)
    rw [herror]
    exact ⟨s, rfl, rfl, rfl⟩
  | none =>
    obtain ⟨hshape, -⟩ := Problem.finite_of_refusal?_eq_none hrefusal
    obtain ⟨q, rows, cols, cells⟩ := p
    obtain rfl : rows = q.size := hshape.rows_eq
    obtain rfl : cols = q.size := hshape.cols_eq
    have hsized := Problem.sized_of_wellShaped q cells hshape.dim_pos
    have hnone : (⟨⟨q, rfl⟩, cells⟩ : Lcp α q.size).refusal? s.settings = none := by
      rw [Problem.refusal?, Problem.fault?, hsized] at hrefusal
      exact hrefusal
    have hanswer : ((Complementarity.Solver.fresh α s.settings s.diagnostics).solve
        ⟨q, q.size, q.size, cells⟩).1 = .ok ((⟨⟨q, rfl⟩, cells⟩ : Lcp α q.size).run s.settings
          s.diagnostics (s.workspace.fitted q.size).tableau (Point.zero α q.size)).1 := by
      rw [Complementarity.Solver.solve, hsized]
      refine (Solver.solveInto_of_refusal_eq_none hnone _).trans (congrArg Except.ok ?_)
      exact Lcp.run_fst_eq _ _ _ _ _ _ _
    obtain ⟨workspace, hrun⟩ := run_of ⟨⟨q, rfl⟩, cells⟩ s.settings hshape.dim_pos
      (s.workspace.isFitted_fitted q.size) hstride (Point.zero α q.size)
    rw [hanswer]
    dsimp only
    change ∃ s', (run (s.workspace.fitted q.size) q (.ofDense cells) s.settings s.diagnostics
      (.of (Point.zero α q.size)) >>= _) = _ ∧ _
    rw [hrun]
    exact ⟨_, rfl, rfl, rfl⟩

/-- **A request** passes its checks. -/
theorem perform_eq (s : Solver α) (hstride : 0 < s.diagnostics.every)
    (request : Complementarity.Solver.Request α) :
    ∃ s', s.perform request = .ok s' ∧ s'.settings = request.settingsAfter s.settings ∧
      s'.diagnostics = s.diagnostics := by
  cases request with
  | solve p =>
    obtain ⟨s', hs', hsettings, hdiagnostics⟩ := s.solve_eq hstride p
    refine ⟨s', ?_, hsettings, hdiagnostics⟩
    rw [perform, hs']
    rfl
  | setSettings settings => exact ⟨_, rfl, rfl, rfl⟩
  | duplicate => exact ⟨_, rfl, rfl, rfl⟩

/-- **Requests** pass their checks, and of the settings those remain that were chosen last. -/
theorem performAll_eq (s : Solver α) (hstride : 0 < s.diagnostics.every)
    (requests : List (Complementarity.Solver.Request α)) :
    ∃ s', s.performAll requests = .ok s' ∧
      s'.settings = requests.foldl Solver.Request.settingsAfter s.settings ∧
      s'.diagnostics = s.diagnostics := by
  induction requests generalizing s with
  | nil => exact ⟨s, rfl, rfl, rfl⟩
  | cons request rest ih =>
    obtain ⟨next, hnext, hsettings, hdiagnostics⟩ := s.perform_eq hstride request
    obtain ⟨last, hlast, hchosen, hkept⟩ := ih next (hdiagnostics ▸ hstride)
    refine ⟨last, ?_, ?_, hkept.trans hdiagnostics⟩
    · rw [performAll, List.foldlM_cons, hnext, ok_bind]
      exact hlast
    · rw [hchosen, hsettings, List.foldl_cons]

/-- **No solve fails but by a refusal.**  Whatever a solver has been asked since an environment made
it, it has got through that, and it gets through the next problem too: every access is in range,
every divisor has a reciprocal, and the stride is not zero.  The answer is that of the method with
its ranges in the types.  It is an error exactly if the problem is empty, the matrix does not fit,
an entry is not finite or the settings allow no iteration, and the error is the first of the checks
that fails. -/
theorem solve_total (env : Environment) (settings : Settings)
    (requests : List (Complementarity.Solver.Request α)) (p : Problem α) :
    ∃ s s' answer, (withSettings α env settings).performAll requests = .ok s ∧
      s.settings = requests.foldl Solver.Request.settingsAfter settings ∧
      s.solve p = .ok (answer, s') ∧
      answer = (((Complementarity.Solver.withSettings α env settings).performAll requests).solve
        p).1.map Result.of ∧
      (∀ e, answer = .error e ↔ p.FirstFault s.settings e) ∧
      ((∃ e, answer = .error e) ↔ p.dim = 0 ∨ ¬(p.m.rows = p.dim ∧ p.m.cols = p.dim) ∨
        (∃ i, Scalar.isFinite (p.constants.get i) = false) ∨
        (∃ i j, Scalar.isFinite (p.m.cells.entry i j) = false) ∨ s.settings.maxIter = some 0) := by
  have hstride : 0 < (withSettings α env settings).diagnostics.every :=
    Diagnostics.ofEnvironment_every_pos env
  obtain ⟨s, hs, hsettings, hdiagnostics⟩ := performAll_eq _ hstride requests
  obtain ⟨s', hs', -⟩ := s.solve_eq (hdiagnostics ▸ hstride) p
  have hfirst : ∀ e, ((Complementarity.Solver.fresh α s.settings s.diagnostics).solve p).1.map
      Result.of = .error e ↔ p.FirstFault s.settings e := fun e =>
    map_eq_error_iff.trans (Complementarity.Solver.fresh α s.settings
      s.diagnostics).solve_fst_eq_error_iff
  refine ⟨s, s', _, hs, hsettings, hs', ?_, hfirst, ?_⟩
  · rw [Solver.solve_performAll_fst, hsettings, hdiagnostics]
    rfl
  · exact (exists_congr hfirst).trans Problem.exists_firstFault_iff

/-- A problem whose matrix is too large for the floating-point range below the diagonal. -/
def infinite : Problem Float :=
  .ofLcp (⟨#v[-1.5, 1.5], Dense.ofFn fun i j => if j < i then 1e999 else 1.5⟩ : Lcp Float 2)

/-- A problem that is solved in three pivots. -/
def ordinary : Problem Float :=
  .ofLcp (⟨#v[-4, -5, 3], Dense.ofFn fun i j => if i = j then 2 else 1⟩ : Lcp Float 3)

/-- The infinite entry is refused before the settings are, after an earlier solve.  With usable
settings again, a problem of another dimension is solved. -/
theorem solve_total_infinite :
    (∃ s s', (withSettings Float {} {}).performAll
        [.solve (.ofLcp overflowing), .setSettings { maxIter := some 0 }] = .ok s ∧
      s.solve infinite = .ok (.error (.nonFiniteMatrix 1 0), s')) ∧
    ∃ s s' result, (withSettings Float {} {}).performAll
        [.solve (.ofLcp overflowing), .setSettings { maxIter := some 0 }, .solve infinite,
          .setSettings {}] = .ok s ∧
      s.solve ordinary = .ok (.ok result, s') ∧ result.status = .nontrivialSolution ∧
        result.cost.pivots = 3 := by
  constructor
  · obtain ⟨s, s', answer, hs, -, hsolve, -, hfirst, -⟩ := solve_total {} {}
      [.solve (.ofLcp overflowing), .setSettings { maxIter := some 0 }] infinite
    have hfault : infinite.fault? = some (.nonFiniteMatrix 1 0) := by decide +kernel
    have hfirst : answer = .error (.nonFiniteMatrix 1 0) := by
      rw [hfirst, ← Problem.refusal?_eq_some_iff, Problem.refusal?, hfault, Option.some_or]
    rw [hfirst] at hsolve
    exact ⟨s, s', hs, hsolve⟩
  · obtain ⟨s, s', answer, hs, -, hsolve, hanswer, -, -⟩ := solve_total {} {}
      [.solve (.ofLcp overflowing), .setSettings { maxIter := some 0 }, .solve infinite,
        .setSettings {}] ordinary
    have hrun : answer.toOption.map (fun result => (result.status, result.cost.pivots)) =
        some (.nontrivialSolution, 3) := by
      rw [hanswer]
      decide +kernel
    cases answer with
    | error e => cases hrun
    | ok result =>
      obtain ⟨hstatus, hpivots⟩ := Prod.mk.inj (Option.some.inj hrun)
      exact ⟨s, s', result, hs, hsolve, hstatus, hpivots⟩

end Solver

end Complementarity.Guarded
