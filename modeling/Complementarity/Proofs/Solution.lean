import Complementarity.Proofs.Feasibility
import Complementarity.Proofs.Memory

/-!
# What a run returns is a solution

When the artificial variable has left, the constants of the rows are the values of the basic
variables.  What is proved here, for exact arithmetic but for the first item:

* **reading off** — `read_readOff`: the result has the constant of its row for each basic variable
  and zero for each nonbasic one, whatever the pair of vectors held before;
* **soundness of a run** — `State.Valid.isSolution_readOff`: once the artificial variable has left
  a valid state, what is read off is a solution;
* **what a solver returns** — `Solver.solve_fst`, `Lcp.status_run_eq`: a problem of the right shape
  is not refused, and the status depends on the last state of the run alone;
* **soundness** — `isSolution_of_isSolved`: a point that is returned with a solved status is a
  solution.
-/

namespace Complementarity

open Tableau Variable

/-! ## Reading off -/

section ReadOff

variable {α : Type} {n : Nat}

/-- The coordinate of a variable.  The artificial pair has none. -/
def Point.read (x : Point α n) : Variable n → Option α
  | .w i => if h : i.val < n then some (x.w.get ⟨i.val, h⟩) else none
  | .z i => if h : i.val < n then some (x.z.get ⟨i.val, h⟩) else none

theorem Point.read_w (x : Point α n) (i : Fin n) : x.read (.w i.castSucc) = some (x.w.get i) :=
  dif_pos i.isLt

theorem Point.read_z (x : Point α n) (i : Fin n) : x.read (.z i.castSucc) = some (x.z.get i) :=
  dif_pos i.isLt

theorem Point.read_put_self (x : Point α n) {v : Variable n} (hv : v.isArtificial = false) (a : α) :
    (x.put v a).read v = some a := by
  have hi := index_lt_of_proper hv
  cases v with
  | w i | z i =>
    change i.val < n at hi
    rw [put, dif_pos hi, read, dif_pos hi]
    exact congrArg some ((vector_get_set _ ⟨i, hi⟩ ⟨i, hi⟩ a).trans (if_pos rfl))

theorem Point.read_put_of_ne (x : Point α n) {u v : Variable n} (h : v ≠ u)
    (hu : u.isArtificial = false) (a : α) : (x.put v a).read u = x.read u := by
  have hj := index_lt_of_proper hu
  cases v with
  | w i =>
    rw [put]
    split
    · rename_i hi
      cases u with
      | w j =>
        change j.val < n at hj
        rw [read, read, dif_pos hj, dif_pos hj]
        refine congrArg some ((vector_get_set _ ⟨i, hi⟩ ⟨j, hj⟩ a).trans (if_neg fun heq => h ?_))
        rw [Fin.ext (Fin.mk.inj heq)]
      | z j => rfl
    · rfl
  | z i =>
    rw [put]
    split
    · rename_i hi
      cases u with
      | w j => rfl
      | z j =>
        change j.val < n at hj
        rw [read, read, dif_pos hj, dif_pos hj]
        refine congrArg some ((vector_get_set _ ⟨i, hi⟩ ⟨j, hj⟩ a).trans (if_neg fun heq => h ?_))
        rw [Fin.ext (Fin.mk.inj heq)]
    · rfl

/-- A coordinate after a list of writes, if no write puts anything else there and one puts the
value there, or it was there before. -/
theorem Point.read_foldl_put {ι : Type} (var : ι → Variable n) (val : ι → α) {u : Variable n}
    (hu : u.isArtificial = false) {a : α} (writes : List ι) (x : Point α n)
    (hall : ∀ i ∈ writes, var i = u → val i = a)
    (hsome : (∃ i ∈ writes, var i = u) ∨ x.read u = some a) :
    (writes.foldl (fun x i => x.put (var i) (val i)) x).read u = some a := by
  induction writes generalizing x with
  | nil => exact hsome.resolve_left (by simp)
  | cons i writes ih =>
    rw [List.foldl_cons]
    refine ih _ (fun j hj => hall j (List.mem_cons_of_mem i hj)) ?_
    by_cases hi : var i = u
    · subst hi
      rw [x.read_put_self hu, hall i List.mem_cons_self rfl]
      exact Or.inr rfl
    · rw [x.read_put_of_ne hi hu]
      refine hsome.imp_left ?_
      rintro ⟨j, _ | ⟨_, hj⟩, hju⟩
      · exact absurd hju hi
      · exact ⟨j, hj, hju⟩

variable [Scalar α]

/-- **Reading off.**  The result does not depend on what the vectors held before: it has the
constant of its row for a basic variable, and zero for a nonbasic one. -/
theorem Basis.Arranged.read_readOff {b : Basis n} {left : Fin (n + 1)} (hb : b.Arranged left)
    (t : Tableau α n) (x : Point α n) {u : Variable n} (hu : u.isArtificial = false) :
    (b.readOff t x).read u = some (b.along t.constant left 0 u) := by
  have hformal : u ≠ formal n := by
    rintro rfl
    rw [Bool.eq_false_iff, ne_eq, isArtificial_iff] at hu
    exact hu (Or.inr rfl)
  rcases hb.exists_place hformal with ⟨r, rfl⟩ | ⟨c, rfl⟩
  · rw [Basis.along_inRow hb]
    refine Point.read_foldl_put _ _ hu _ _ ?_ (Or.inr ?_)
    · intro c _ hc
      exact absurd hc.symm (hb.inRow_ne_inColumn r c)
    · refine Point.read_foldl_put _ _ hu _ _ ?_ (Or.inl ⟨r, List.mem_finRange r, rfl⟩)
      intro r' _ hr'
      rw [hb.inRow_injective hr']
  · rw [Basis.along_zero_of_notMem _ _ (hb.inColumn_notMem_basicSet c)]
    refine Point.read_foldl_put _ _ hu _ _ (fun _ _ _ => rfl) (Or.inl ⟨c, ?_, rfl⟩)
    rw [List.mem_filter, hu]
    exact ⟨List.mem_finRange c, rfl⟩

theorem Basis.Arranged.w_readOff {b : Basis n} {left : Fin (n + 1)} (hb : b.Arranged left)
    (t : Tableau α n) (x : Point α n) (i : Fin n) :
    (b.readOff t x).w.get i = b.along t.constant left 0 (.w i.castSucc) := by
  have hread := hb.read_readOff t x (u := .w i.castSucc) (by simp [isArtificial, index])
  rw [Point.read_w] at hread
  exact Option.some.inj hread

theorem Basis.Arranged.z_readOff {b : Basis n} {left : Fin (n + 1)} (hb : b.Arranged left)
    (t : Tableau α n) (x : Point α n) (i : Fin n) :
    (b.readOff t x).z.get i = b.along t.constant left 0 (.z i.castSucc) := by
  have hread := hb.read_readOff t x (u := .z i.castSucc) (by simp [isArtificial, index])
  rw [Point.read_z] at hread
  exact Option.some.inj hread

end ReadOff

/-! ## Soundness of a run -/

variable {n : Nat}

/-- A solution of a problem: the equation holds, no entry is negative, and of each pair of entries
one is zero. -/
structure Lcp.IsSolution (p : Lcp ℚ n) (x : Point ℚ n) : Prop where
  equation : ∀ i, x.w.get i = p.q.get i + ∑ j, p.m.entry i j * x.z.get j
  w_nonneg : ∀ i, 0 ≤ x.w.get i
  z_nonneg : ∀ i, 0 ≤ x.z.get i
  complementary : ∀ i, x.w.get i * x.z.get i = 0

theorem Tableau.constant_eq_valueAt (t : Tableau ℚ n) (r : Fin n) :
    t.constant r = t.valueAt (Pi.single 0 1) r := by
  rw [valueAt, Finset.sum_eq_single 0 (fun k _ hk => by rw [Pi.single_eq_of_ne hk, smul_zero])
    (fun h => absurd (Finset.mem_univ _) h), Pi.single_eq_same, smul_eq_mul, mul_one]
  rfl

/-- The constant of a row is the constant coefficient of its perturbed constant. -/
theorem Tableau.ofLex_value_zero (t : Tableau ℚ n) (r : Fin n) :
    ofLex (t.value r) 0 = t.constant r := rfl

namespace State

/-- The values that the variables have in a state: the constants of the rows for the basic ones,
and zero for the nonbasic ones. -/
noncomputable def values (s : State ℚ n) : Variable n → ℚ :=
  s.current.along s.tableau.constant s.column 0

namespace Valid

variable {p : Lcp ℚ n} {s : State ℚ n}

theorem augmented_values (h : s.Valid p) : p.Augmented (Pi.single 0 1) s.values := by
  have halong := h.dictionary.augmented_along h.arranged (Pi.single 0 (1 : ℚ)) s.column 0
  simp only [smul_zero, add_zero, ← constant_eq_valueAt] at halong
  exact halong

theorem values_nonneg (h : s.Valid p) (u : Variable n) : 0 ≤ s.values u := by
  refine Basis.forall_along h.arranged (P := fun x : ℚ => 0 ≤ x) (fun r => ?_) le_rfl _ u
  have hconstant := Perturbed.constant_nonneg (h.feasible r).le
  rwa [ofLex_value_zero] at hconstant

theorem values_eq_zero_or (h : s.Valid p) (u : Variable n) :
    s.values u = 0 ∨ s.values u.partner = 0 :=
  Basis.along_eq_zero_or h.arranged _ _ u

theorem values_artificial (h : s.Valid p) (hreleased : s.isReleased = true) :
    s.values (artificial n) = 0 := by
  rw [← h.toBookkept.isReleased_iff.1 hreleased]
  exact Basis.along_inColumn h.arranged _ _ _

/-- **Soundness of a run.**  Once the artificial variable has left, the constants of the rows are
a solution. -/
theorem isSolution_readOff (h : s.Valid p) (hreleased : s.isReleased = true) (buffer : Point ℚ n) :
    p.IsSolution (s.current.readOff s.tableau buffer) := by
  have hw : ∀ i, (s.current.readOff s.tableau buffer).w.get i = s.values (.w i.castSucc) :=
    h.arranged.w_readOff s.tableau buffer
  have hz : ∀ i, (s.current.readOff s.tableau buffer).z.get i = s.values (.z i.castSucc) :=
    h.arranged.z_readOff s.tableau buffer
  constructor
  · intro i
    have hrow := h.augmented_values.row i
    rw [h.values_artificial hreleased, Pi.single_eq_same, Pi.single_eq_of_ne (Fin.succ_ne_zero i),
      smul_eq_mul, mul_one, add_zero, add_zero] at hrow
    simp only [hw, hz]
    exact hrow
  · intro i
    rw [hw]
    exact h.values_nonneg _
  · intro i
    rw [hz]
    exact h.values_nonneg _
  · intro i
    rw [hw, hz, mul_eq_zero]
    exact h.values_eq_zero_or (.w i.castSucc)

end Valid

end State

/-! ## What a solver returns -/

/-- A run that is not cut short stops in a state that does not pivot. -/
theorem State.not_pivoted_final {α : Type} [Scalar α] (s : State α n) {budget : Nat}
    (h : (s.trace budget).length ≤ budget) : ∀ next, (s.final budget).step ≠ .pivoted next := by
  induction budget generalizing s with
  | zero => simp [trace] at h
  | succ budget ih =>
    rcases s.pivoted_or_not with ⟨next, hstep⟩ | hstep
    · rw [trace_succ_of_pivoted hstep, List.length_cons, Nat.add_le_add_iff_right] at h
      rw [final_succ_of_pivoted hstep]
      exact ih next h
    · rw [final_succ_of_not_pivoted hstep]
      exact hstep

/-- No row overflows exactly if the values of all rows are finite. -/
theorem Tableau.overflowingRow_eq_none_iff {α : Type} [Scalar α] {t : Tableau α n} :
    t.overflowingRow = none ↔ ∀ r, Scalar.isFinite (t.constant r) = true :=
  find?_not_isFinite_eq_none_iff

theorem State.ending_eq_ofReleased {α : Type} [Scalar α] {s : State α n}
    (h : s.isReleased = true) : s.ending = .ofReleased s.tableau s.current := by
  rw [ending, step_eq_released_iff.2 ⟨h, rfl⟩]

/-- Exact numbers are finite, so a run whose artificial variable has left ends with a solution. -/
theorem State.ending_of_isReleased {s : State ℚ n} (h : s.isReleased = true) :
    s.ending = .solution s.current := by
  rw [ending_eq_ofReleased h, Ending.ofReleased, overflowingRow_eq_none_iff.2 fun _ => rfl]

theorem State.ending_of_unblocked {α : Type} [Scalar α] {s : State α n}
    (hreleased : s.isReleased = false) (hstep : ∀ next, s.step ≠ .pivoted next) :
    s.ending = .ray s.driving ∧ s.tableau.blockingRow s.driving = none := by
  have hrow : s.tableau.blockingRow s.driving = none := by
    cases hrow : s.tableau.blockingRow s.driving with
    | none => rfl
    | some row => exact absurd (step_eq_pivoted_iff.2 ⟨hreleased, row, hrow, rfl⟩) (hstep _)
  exact ⟨by rw [ending, step_eq_unblocked_iff.2 ⟨hreleased, hrow, rfl⟩], hrow⟩

/-- **The status of a run in exact arithmetic.** -/
theorem Lcp.status_run_eq {p : Lcp ℚ n} {s : State ℚ n} (h : p.start? = some s)
    (settings : Settings) (d : Diagnostics) (workspace : Tableau ℚ n) (buffer : Point ℚ n) :
    (p.run settings d workspace buffer).1.status =
      if (s.trace (settings.budget n)).length ≤ settings.budget n then
        if (s.final (settings.budget n)).isReleased then .nontrivialSolution else .noSolution
      else .failedToConverge := by
  rw [status_run h]
  split
  · rename_i hlength
    cases hreleased : (s.final (settings.budget n)).isReleased with
    | true =>
      rw [State.ending_of_isReleased hreleased]
      rfl
    | false =>
      rw [(State.ending_of_unblocked hreleased (s.not_pivoted_final hlength)).1]
      rfl
  · rfl

section LastState

variable (p : Lcp ℚ n) (settings : Settings) (d : Diagnostics) (workspace : Tableau ℚ n)
  (buffer : Point ℚ n)

/-- The status is decided by the last state. -/
theorem Lcp.status_run_eq_elim :
    (p.run settings d workspace buffer).1.status =
      (p.states (settings.budget n)).getLast?.elim .trivialSolution fun s =>
        if (p.states (settings.budget n)).length ≤ settings.budget n then
          if s.isReleased then .nontrivialSolution else .noSolution
        else .failedToConverge := by
  cases hstart : p.start? with
  | none =>
    rw [run_of_start_eq_none p settings d workspace buffer hstart, p.states_eq_nil_iff.2 hstart]
    rfl
  | some s =>
    rw [status_run_eq hstart, p.states_of_start_eq_some hstart, State.getLast?_trace]
    rfl

/-- The point is read off the last state, if the artificial variable has left there. -/
theorem Lcp.point_run_eq_elim :
    (p.run settings d workspace buffer).1.point =
      (p.states (settings.budget n)).getLast?.elim ⟨p.q, Vector.replicate n 0⟩ fun s =>
        if (p.states (settings.budget n)).length ≤ settings.budget n ∧ s.isReleased = true then
          s.current.readOff s.tableau buffer
        else Point.zero ℚ n := by
  cases hstart : p.start? with
  | none =>
    rw [run_of_start_eq_none p settings d workspace buffer hstart, p.states_eq_nil_iff.2 hstart]
    rfl
  | some s =>
    rw [point_run hstart, p.states_of_start_eq_some hstart, State.getLast?_trace,
      Option.elim_some]
    by_cases hlength : (s.trace (settings.budget n)).length ≤ settings.budget n
    · rw [if_pos hlength]
      by_cases hreleased : (s.final (settings.budget n)).isReleased = true
      · rw [if_pos ⟨hlength, hreleased⟩, State.ending_of_isReleased hreleased]
        rfl
      · have hray := State.ending_of_unblocked (Bool.eq_false_iff.2 hreleased)
          (s.not_pivoted_final hlength)
        rw [if_neg fun h => hreleased h.2, hray.1]
        rfl
    · rw [if_neg hlength, if_neg fun h => hlength h.1]

end LastState

/-- A solved status means a solution. -/
theorem Lcp.isSolution_run (p : Lcp ℚ n) (settings : Settings) (d : Diagnostics)
    (workspace : Tableau ℚ n) (buffer : Point ℚ n)
    (h : (p.run settings d workspace buffer).1.status.isSolved = true) :
    p.IsSolution (p.run settings d workspace buffer).1.point := by
  cases hstart : p.start? with
  | none =>
    rw [run_of_start_eq_none p settings d workspace buffer hstart]
    have hzero : ∀ i, (p.trivialOutcome settings.recordSizes).point.z.get i = 0 := by
      intro i
      exact Vector.getElem_replicate i.isLt
    refine ⟨fun i => ?_, p.nonneg_of_start_eq_none hstart, fun i => (hzero i).ge, fun i => ?_⟩
    · simp only [hzero, mul_zero, Finset.sum_const_zero, add_zero]
      rfl
    · rw [hzero, mul_zero]
  | some s =>
    rw [status_run_eq hstart] at h
    split at h
    · rename_i hlength
      split at h
      · rename_i hreleased
        have hvalid := State.Valid.of_mem_trace hstart (s.final_mem_trace (settings.budget n))
        rw [point_run hstart, if_pos hlength, State.ending_of_isReleased hreleased]
        exact hvalid.isSolution_readOff hreleased buffer
      · nomatch h
    · nomatch h

theorem Problem.dim_pos {α : Type} {p : Problem α} {lcp : Lcp α p.dim} (h : p.sized = .ok lcp) :
    0 < p.dim := by
  rw [sized] at h
  split at h
  · nomatch h
  · rename_i hdim
    exact Nat.pos_of_ne_zero hdim

/-- Exact numbers are finite. -/
theorem Lcp.fault?_eq_none (p : Lcp ℚ n) (hn : 0 < n) : p.fault? = none :=
  fault?_eq_none_iff.2 ⟨hn, fun _ => rfl, fun _ _ => rfl⟩

/-- Exact data are not refused, so the settings decide. -/
theorem Lcp.refusal?_eq (p : Lcp ℚ n) (hn : 0 < n) (settings : Settings) :
    p.refusal? settings = InputError.ofSettings? settings := by
  rw [refusal?, p.fault?_eq_none hn, Option.none_or]

/-- **What a solver returns** for exact data: the result of a run, unless the settings allow no
iteration. -/
theorem Solver.solveSized_fst (s : Solver ℚ) (p : Lcp ℚ n) (hn : 0 < n)
    (hs : s.settings.isUsable = true) :
    (s.solveSized p).1 =
      .ok (p.run s.settings s.diagnostics (s.workspace n) (Point.zero ℚ n)).1 :=
  solveInto_of_refusal_eq_none (Lcp.refusal?_eq_none_iff.2 ⟨p.fault?_eq_none hn, hs⟩) _

/-- A problem of the right shape is not refused either. -/
theorem Solver.solve_fst (s : Solver ℚ) {p : Problem ℚ} {lcp : Lcp ℚ p.dim} (hp : p.sized = .ok lcp)
    (hs : s.settings.isUsable = true) :
    (s.solve p).1 = .ok
      (lcp.run s.settings s.diagnostics (s.workspace p.dim) (Point.zero ℚ p.dim)).1 :=
  solve_of_fault_eq_none hp (lcp.fault?_eq_none (Problem.dim_pos hp)) hs

/-- **Soundness.**  A problem of the right shape gets a result, and a point that is returned with a
solved status is a solution. -/
theorem Solver.isSolution_of_isSolved (s : Solver ℚ) {p : Problem ℚ} {lcp : Lcp ℚ p.dim}
    (hp : p.sized = .ok lcp) (hs : s.settings.isUsable = true) :
    ∃ o, (s.solve p).1 = .ok o ∧ (o.status.isSolved = true → lcp.IsSolution o.point) :=
  ⟨_, s.solve_fst hp hs, lcp.isSolution_run _ _ _ _⟩

/-- A problem whose rows have the same constant, so that they differ by their perturbation only. -/
def tied : Lcp ℚ 2 := ⟨#v[-1, -1], Dense.ofFn fun i j => if i = j then 2 else 1⟩

theorem isSolution_tied :
    ∃ o, ((Solver.new ℚ {}).solve (.ofLcp tied)).1 = .ok o ∧ o.status = .nontrivialSolution ∧
      tied.IsSolution o.point := by
  have hstatus : ((Solver.new ℚ {}).solve (.ofLcp tied)).1.toOption.map Outcome.status =
      some .nontrivialSolution := by decide +kernel
  have hsized : (Problem.ofLcp tied).sized = .ok tied := rfl
  obtain ⟨o, ho, hsolution⟩ := (Solver.new ℚ {}).isSolution_of_isSolved hsized rfl
  rw [ho] at hstatus
  have hnontrivial : o.status = .nontrivialSolution := Option.some.inj hstatus
  have hsolved : o.status.isSolved = true := by rw [hnontrivial, Status.isSolved]
  exact ⟨o, ho, hnontrivial, hsolution hsolved⟩

end Complementarity
