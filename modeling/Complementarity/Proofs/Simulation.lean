import Complementarity.Proofs.Solution

/-!
# Runs side by side

The course of a solve depends on comparisons alone: which row comes first and which row blocks.
Two solves, perhaps over two kinds of scalars, therefore run side by side as long as their
comparisons come out alike, whatever else their tableaux have in common.

* **scans** — `lexLeast_alongside`, with `Tableau.blockingRow_eq_of_alongside` and
  `Lcp.start?_alongside`: a scan finds the same candidate if any two keys compare alike;
* **the step** — `Simulation`: a relation between states at the same place of their runs that
  forces the same row to block and that a pivot there keeps, and `Simulation.step`;
* **the run** — `Simulation.run`: both runs make the same pivots, and their last states are
  related;
* **the result** — `Simulation.course_run` and `Simulation.point_run`: both solves have the same
  status, counts and pivots, and the points correspond if the constants of the rows do.
-/

namespace Complementarity

open Tableau Variable

variable {α β : Type} [Scalar α] [Scalar β] {n : Nat}

/-! ## Scans -/

section Scans

variable {ι : Type} {key : ι → List α} {key' : ι → List β}

/-- Two scans with incumbents.  By induction on the candidates, for every incumbent. -/
theorem foldl_lexKeep_alongside (candidates : List ι) (best : ι)
    (h : ∀ i ∈ best :: candidates, ∀ j ∈ best :: candidates,
      lexLt (key' i) (key' j) = lexLt (key i) (key j)) :
    ∃ k, candidates.foldl (lexKeep key) (some (best, key best)) = some (k, key k) ∧
      candidates.foldl (lexKeep key') (some (best, key' best)) = some (k, key' k) := by
  induction candidates generalizing best with
  | nil => exact ⟨best, rfl, rfl⟩
  | cons i rest ih =>
    have hsame := h i (by simp) best (by simp)
    simp only [List.foldl_cons, lexKeep, hsame]
    cases lexLt (key i) (key best) with
    | true =>
      have hsub : i :: rest ⊆ best :: i :: rest := List.subset_cons_self best (i :: rest)
      exact ih i fun j hj k hk => h j (hsub hj) k (hsub hk)
    | false =>
      have hsub : best :: rest ⊆ best :: i :: rest :=
        List.cons_subset_cons best (List.subset_cons_self i rest)
      exact ih best fun j hj k hk => h j (hsub hj) k (hsub hk)

/-- **Scans side by side.**  Two scans find the same candidate if any two keys compare alike. -/
theorem lexLeast_alongside (key : ι → List α) (key' : ι → List β) (candidates : List ι)
    (h : ∀ i ∈ candidates, ∀ j ∈ candidates, lexLt (key' i) (key' j) = lexLt (key i) (key j)) :
    lexLeast key candidates = none ∧ lexLeast key' candidates = none ∨
      ∃ k, lexLeast key candidates = some (k, key k) ∧
        lexLeast key' candidates = some (k, key' k) := by
  cases candidates with
  | nil => exact Or.inl ⟨rfl, rfl⟩
  | cons i rest => exact Or.inr (foldl_lexKeep_alongside rest i h)

end Scans

/-- **The same row blocks** if the same rows have a negative coefficient and their ratios compare
alike. -/
theorem Tableau.blockingRow_eq_of_alongside {t : Tableau α n} {t' : Tableau β n} {d : Fin (n + 1)}
    (hneg : ∀ r, t'.coefficient r d < 0 ↔ t.coefficient r d < 0)
    (hlt : ∀ r r', t.coefficient r d < 0 → t.coefficient r' d < 0 →
      lexLt (t'.ratio d r) (t'.ratio d r') = lexLt (t.ratio d r) (t.ratio d r')) :
    t'.blockingRow d = t.blockingRow d := by
  simp only [blockingRow, hneg]
  rcases lexLeast_alongside (t.ratio d) (t'.ratio d)
      ((List.finRange n).filter fun r => decide (t.coefficient r d < 0)) (fun r hr r' hr' =>
        hlt r r' (of_decide_eq_true (List.mem_filter.1 hr).2)
          (of_decide_eq_true (List.mem_filter.1 hr').2)) with ⟨h, h'⟩ | ⟨row, h, h'⟩
  · rw [h, h']
    rfl
  · rw [h, h']
    rfl

/-- **The artificial variable enters in the same row** if the first constants compare alike. -/
theorem Lcp.start?_alongside {p : Lcp α n} {p' : Lcp β n}
    (hlt : ∀ r r', lexLt (p'.loaded.polynomial r) (p'.loaded.polynomial r') =
      lexLt (p.loaded.polynomial r) (p.loaded.polynomial r'))
    (hneg : ∀ r, lexNeg (p'.loaded.polynomial r) = lexNeg (p.loaded.polynomial r)) :
    p.start? = none ∧ p'.start? = none ∨
      ∃ row, p.start? = some (State.start p.loaded row) ∧
        p'.start? = some (State.start p'.loaded row) := by
  simp only [start?, lowestRow]
  rcases lexLeast_alongside p.loaded.polynomial p'.loaded.polynomial (List.finRange n)
      (fun r _ r' _ => hlt r r') with ⟨h, h'⟩ | ⟨row, h, h'⟩
  · rw [h, h']
    exact Or.inl ⟨rfl, rfl⟩
  · rw [h, h', Option.filter_some, Option.filter_some, hneg]
    cases lexNeg (p.loaded.polynomial row) with
    | true => exact Or.inr ⟨row, rfl, rfl⟩
    | false => exact Or.inl ⟨rfl, rfl⟩

/-! ## The step -/

/-- Two states at the same place of their runs: they differ in their tableaux alone. -/
structure State.SamePlace (s : State α n) (t : State β n) : Prop where
  basis : t.basis = s.basis
  row : t.row = s.row
  column : t.column = s.column

namespace State.SamePlace

variable {s : State α n} {t : State β n}

omit [Scalar α] [Scalar β] in
theorem exchanged (h : s.SamePlace t) : t.exchanged = s.exchanged := by
  rw [State.exchanged, State.exchanged, h.basis, h.row, h.column]

omit [Scalar α] [Scalar β] in
theorem current (h : s.SamePlace t) : t.current = s.current := congrArg Prod.fst h.exchanged

omit [Scalar α] [Scalar β] in
theorem driving (h : s.SamePlace t) : t.driving = s.driving := congrArg Prod.snd h.exchanged

omit [Scalar α] [Scalar β] in
theorem isReleased (h : s.SamePlace t) : t.isReleased = s.isReleased := by
  rw [State.isReleased, State.isReleased, h.current, h.column]

omit [Scalar α] [Scalar β] in
theorem lastPivot (h : s.SamePlace t) : t.lastPivot = s.lastPivot := by
  rw [State.lastPivot, State.lastPivot, h.row, h.column]

theorem start (t : Tableau α n) (t' : Tableau β n) (row : Fin n) :
    (State.start t row).SamePlace (State.start t' row) := ⟨rfl, rfl, rfl⟩

theorem pivotAt (h : s.SamePlace t) (row : Fin n) : (s.pivotAt row).SamePlace (t.pivotAt row) :=
  ⟨h.current, rfl, h.driving⟩

end State.SamePlace

/-- A relation between states that pivots keep.  Its number is that of the iterations to come. -/
structure Simulation (R : Nat → State α n → State β n → Prop) : Prop where
  samePlace : ∀ {k s t}, R k s t → s.SamePlace t
  blockingRow : ∀ {k s t}, R (k + 1) s t → s.isReleased = false →
    t.tableau.blockingRow s.driving = s.tableau.blockingRow s.driving
  pivotAt : ∀ {k s t row}, R (k + 1) s t → s.isReleased = false →
    s.tableau.blockingRow s.driving = some row → R k (s.pivotAt row) (t.pivotAt row)
  overflowingRow : ∀ {k s t}, R k s t → s.isReleased = true →
    t.tableau.overflowingRow = s.tableau.overflowingRow

namespace Simulation

variable {R : Nat → State α n → State β n → Prop} {k : Nat} {s : State α n} {t : State β n}

/-- Two related states that do not pivot end alike. -/
theorem ending (hR : Simulation R) (h : R k s t) (hs : ∀ next, s.step ≠ .pivoted next)
    (ht : ∀ next, t.step ≠ .pivoted next) : t.ending = s.ending := by
  have hplace := hR.samePlace h
  cases hreleased : s.isReleased with
  | true =>
    rw [State.ending_eq_ofReleased hreleased,
      State.ending_eq_ofReleased (hplace.isReleased.trans hreleased), Ending.ofReleased,
      Ending.ofReleased, hR.overflowingRow h hreleased, hplace.current]
  | false =>
    rw [(State.ending_of_unblocked hreleased hs).1,
      (State.ending_of_unblocked (hplace.isReleased.trans hreleased) ht).1, hplace.driving]

/-- **The step.**  Of two related states both pivot, and in the same row, or neither does. -/
theorem step (hR : Simulation R) (h : R (k + 1) s t) :
    (∃ next next', s.step = .pivoted next ∧ t.step = .pivoted next' ∧ R k next next') ∨
      (∀ next, s.step ≠ .pivoted next) ∧ ∀ next, t.step ≠ .pivoted next := by
  have hplace := hR.samePlace h
  have hpivoted : ∀ row, s.isReleased = false →
      (t.tableau.blockingRow t.driving = some row ↔
        s.tableau.blockingRow s.driving = some row) := by
    intro row hreleased
    rw [hplace.driving, hR.blockingRow h hreleased]
  rcases s.pivoted_or_not with ⟨next, hstep⟩ | hs
  · obtain ⟨hreleased, row, hrow, rfl⟩ := State.step_eq_pivoted_iff.1 hstep
    refine Or.inl ⟨_, t.pivotAt row, hstep, State.step_eq_pivoted_iff.2 ?_,
      hR.pivotAt h hreleased hrow⟩
    exact ⟨hplace.isReleased.trans hreleased, row, (hpivoted row hreleased).2 hrow, rfl⟩
  · refine Or.inr ⟨hs, fun next' hstep => ?_⟩
    obtain ⟨hreleased, row, hrow, rfl⟩ := State.step_eq_pivoted_iff.1 hstep
    rw [hplace.isReleased] at hreleased
    exact hs _ (State.step_eq_pivoted_iff.2 ⟨hreleased, row, (hpivoted row hreleased).1 hrow, rfl⟩)

/-! ## The run -/

/-- **The run.**  Both runs make the same pivots, their last states are related, and unless the
budget is spent they end alike. -/
theorem run (hR : Simulation R) {budget : Nat} (h : R budget s t) :
    (t.trace budget).map State.lastPivot = (s.trace budget).map State.lastPivot ∧
      (∃ k, R k (s.final budget) (t.final budget)) ∧
      ((s.trace budget).length ≤ budget → (t.final budget).ending = (s.final budget).ending) := by
  have hpivot := (hR.samePlace h).lastPivot
  induction budget generalizing s t with
  | zero =>
    refine ⟨congrArg ([·]) hpivot, ⟨0, h⟩, fun hlength => ?_⟩
    simp [State.trace] at hlength
  | succ budget ih =>
    rcases hR.step h with ⟨next, next', hs, ht, hnext⟩ | ⟨hs, ht⟩
    · obtain ⟨htrace, hfinal, hending⟩ := ih hnext (hR.samePlace hnext).lastPivot
      rw [State.trace_succ_of_pivoted hs, State.trace_succ_of_pivoted ht,
        State.final_succ_of_pivoted hs, State.final_succ_of_pivoted ht, List.map_cons,
        List.map_cons, hpivot, htrace, List.length_cons, Nat.add_le_add_iff_right]
      exact ⟨rfl, hfinal, hending⟩
    · rw [State.trace_succ_of_not_pivoted hs, State.trace_succ_of_not_pivoted ht,
        State.final_succ_of_not_pivoted hs, State.final_succ_of_not_pivoted ht]
      exact ⟨congrArg ([·]) hpivot, ⟨budget + 1, h⟩, fun _ => hR.ending h hs ht⟩

theorem length_trace (hR : Simulation R) {budget : Nat} (h : R budget s t) :
    (t.trace budget).length = (s.trace budget).length := by
  simpa using congrArg List.length (hR.run h).1

end Simulation

/-! ## The result -/

/-- How a result was reached. -/
structure Course (n : Nat) where
  status : Status
  iterations : Nat
  pivotCount : Nat
  pivots : List (Pivot n)

/-- The course that led to a result. -/
def Outcome.course {α : Type} {n : Nat} (o : Outcome α n) : Course n :=
  ⟨o.status, o.cost.iterations, o.cost.pivots, o.pivots⟩

/-- Two problems whose solves start side by side: neither pivots, or their first states are
related. -/
inductive Lcp.StartAlongside (R : Nat → State α n → State β n → Prop) (budget : Nat) (p : Lcp α n)
    (p' : Lcp β n) : Prop
  | trivial (hstart : p.start? = none) (hstart' : p'.start? = none)
  | pivoted (s : State α n) (t : State β n) (hstart : p.start? = some s)
      (hstart' : p'.start? = some t) (hrelated : R budget s t)

/-- Assignments that are zero off the rows correspond if the values of the rows do. -/
theorem Basis.along_alongside {V W : Type} [Zero V] [Zero W] {b : Basis n} {left : Fin (n + 1)}
    (hb : b.Arranged left) {C : Variable n → V → W → Prop} {y : Fin n → V} {y' : Fin n → W}
    (hy : ∀ r, C (b.inRow r) (y r) (y' r)) (hzero : ∀ u, C u 0 0) (c : Fin (n + 1))
    (u : Variable n) : C u (b.along y c 0 u) (b.along y' c 0 u) := by
  by_cases hu : u ∈ b.basicSet
  · obtain ⟨r, rfl⟩ := mem_basicSet.1 hu
    rw [along_inRow hb, along_inRow hb]
    exact hy r
  · rw [along_zero_of_notMem y c hu, along_zero_of_notMem y' c hu]
    exact hzero u

namespace Simulation

variable {R : Nat → State α n → State β n → Prop} {p : Lcp α n} {p' : Lcp β n}
  {settings : Settings} (hR : Simulation R) (h : p.StartAlongside R (settings.budget n) p')
  (d d' : Diagnostics) (workspace : Tableau α n) (workspace' : Tableau β n) (buffer : Point α n)
  (buffer' : Point β n)

include hR h

/-- **The same course.**  Solves that start side by side have the same status and counts and make
the same pivots. -/
theorem course_run : (p'.run settings d' workspace' buffer').1.course =
    (p.run settings d workspace buffer).1.course := by
  cases h with
  | trivial hstart hstart' =>
    rw [Lcp.run_of_start_eq_none p settings d workspace buffer hstart,
      Lcp.run_of_start_eq_none p' settings d' workspace' buffer' hstart']
    rfl
  | pivoted s t hstart hstart' hrelated =>
    obtain ⟨hpivots, -, hending⟩ := hR.run hrelated
    have hlength := hR.length_trace hrelated
    have hstatus : (p'.run settings d' workspace' buffer').1.status =
        (p.run settings d workspace buffer).1.status := by
      rw [Lcp.status_run hstart, Lcp.status_run hstart', hlength]
      split
      · rename_i hle
        rw [hending hle]
      · rfl
    simp only [Outcome.course, hstatus, Lcp.iterations_run hstart, Lcp.iterations_run hstart',
      Lcp.cost_pivots_run, Lcp.pivots_run hstart, Lcp.pivots_run hstart', hpivots, hlength]

/-- **Corresponding points.**  Let `C u x y` say that `y` corresponds to `x` as a value of the
variable `u`.  If the constants of the rows of related states correspond, so do the results. -/
theorem point_run {C : Variable n → α → β → Prop} (hzero : ∀ u, C u 0 0)
    (hq : ∀ i, C (.w i.castSucc) (p.q.get i) (p'.q.get i))
    (hconstant : ∀ {k s t}, R k s t → ∀ r,
      C (s.current.inRow r) (s.tableau.constant r) (t.tableau.constant r)) (i : Fin n) :
    C (.w i.castSucc) ((p.run settings d workspace buffer).1.point.w.get i)
        ((p'.run settings d' workspace' buffer').1.point.w.get i) ∧
      C (.z i.castSucc) ((p.run settings d workspace buffer).1.point.z.get i)
        ((p'.run settings d' workspace' buffer').1.point.z.get i) := by
  have hzeros : ∀ u : Variable n, C u ((Vector.replicate n (0 : α)).get i)
      ((Vector.replicate n (0 : β)).get i) := by
    intro u
    have hget : (Vector.replicate n (0 : α)).get i = 0 := Vector.getElem_replicate i.isLt
    have hget' : (Vector.replicate n (0 : β)).get i = 0 := Vector.getElem_replicate i.isLt
    rw [hget, hget']
    exact hzero u
  cases h with
  | trivial hstart hstart' =>
    rw [Lcp.run_of_start_eq_none p settings d workspace buffer hstart,
      Lcp.run_of_start_eq_none p' settings d' workspace' buffer' hstart']
    exact ⟨hq i, hzeros _⟩
  | pivoted s t hstart hstart' hrelated =>
    obtain ⟨-, ⟨k, hfinal⟩, hending⟩ := hR.run hrelated
    have hlength := hR.length_trace hrelated
    rw [Lcp.point_run hstart, Lcp.point_run hstart', hlength]
    split
    · rename_i hle
      have harranged := (p.bookkept_of_mem_trace hstart
        (s.final_mem_trace (settings.budget n))).arranged
      have halong := Basis.along_alongside harranged (hconstant hfinal) hzero
        (s.final (settings.budget n)).column
      rw [hending hle]
      -- only an ending with a solution reads values off, and then both read the same places off
      cases hreleased : (s.final (settings.budget n)).isReleased with
      | true =>
        rw [State.ending_eq_ofReleased hreleased, Ending.ofReleased]
        cases (s.final (settings.budget n)).tableau.overflowingRow with
        | none =>
          simp only [Ending.point]
          rw [harranged.w_readOff, harranged.w_readOff, harranged.z_readOff, harranged.z_readOff]
          exact ⟨halong _, halong _⟩
        | some row => exact ⟨hzeros _, hzeros _⟩
      | false =>
        rw [(State.ending_of_unblocked hreleased (s.not_pivoted_final hle)).1]
        exact ⟨hzeros _, hzeros _⟩
    · exact ⟨hzeros _, hzeros _⟩

end Simulation

end Complementarity
