import Mathlib.Data.List.Chain
import Complementarity.Proofs.Bookkeeping
import Complementarity.Run.Basic

/-!
# Runs as sequences of states

A run is determined by the list of states that it passes through, its `trace`.  What is proved
here holds for every kind of scalar:

* **what an iteration comes to** — `step_eq_pivoted_iff` and its companions, by which later proofs
  need not open `State.step`;
* **what a run reports** — `run_eq`: the whole finish is read off the trace.  Hence `ending_run`,
  `iterations_run`, `pivots_run`: the ending is that of the last state, unless the budget is spent,
  and the iterations and pivots are those of the trace;
* **invariants** — `forall_mem_trace`: what a pivot preserves holds of every state of a run;
* **the workspace does not matter** — `run_of_start_eq_none`, `run_of_start_eq_some`: the method
  starts from one state, `Lcp.start?`, whatever tableau it is given to work in;
* **the states of a solve** — `Lcp.states`, whose pivots are those of the result
  (`Lcp.pivots_run_eq`).
-/

namespace Complementarity

variable {α : Type} {n : Nat}

namespace State

/-- The bookkeeping, brought up to date after the last pivot. -/
def current (s : State α n) : Basis n := s.exchanged.1

/-- The column of the next driving variable. -/
def driving (s : State α n) : Fin (n + 1) := s.exchanged.2

/-- The last pivot. -/
def lastPivot (s : State α n) : Pivot n := ⟨s.row, s.column⟩

/-- Whether the artificial variable has just left the basis. -/
def isReleased (s : State α n) : Bool := (s.current.inColumn s.column).isArtificial

variable [Scalar α]

/-- The state after a pivot of the driving variable in a row. -/
def pivotAt (s : State α n) (row : Fin n) : State α n where
  tableau := s.tableau.pivot row (Tableau.coefficientColumn s.driving)
  basis := s.current
  row := row
  column := s.driving

/-! ## What an iteration comes to -/

theorem step_eq (s : State α n) :
    s.step = if s.isReleased then .released s.current
      else match s.tableau.blockingRow s.driving with
        | none => .unblocked s.driving
        | some row => .pivoted (s.pivotAt row) := rfl

theorem step_eq_released_iff {s : State α n} {b : Basis n} :
    s.step = .released b ↔ s.isReleased = true ∧ b = s.current := by
  rw [step_eq]
  cases hr : s.isReleased with
  | true => simp [eq_comm]
  | false => cases s.tableau.blockingRow s.driving <;> simp

theorem step_eq_unblocked_iff {s : State α n} {c : Fin (n + 1)} :
    s.step = .unblocked c ↔
      s.isReleased = false ∧ s.tableau.blockingRow s.driving = none ∧ c = s.driving := by
  rw [step_eq]
  cases hr : s.isReleased with
  | true => simp
  | false => cases s.tableau.blockingRow s.driving <;> simp [eq_comm]

theorem step_eq_pivoted_iff {s t : State α n} :
    s.step = .pivoted t ↔
      s.isReleased = false ∧ ∃ row, s.tableau.blockingRow s.driving = some row ∧
        t = s.pivotAt row := by
  rw [step_eq]
  cases hr : s.isReleased with
  | true => simp
  | false => cases s.tableau.blockingRow s.driving <;> simp [eq_comm]

/-! ## The bookkeeping along a run -/

/-- The bookkeeping of a state is in order. -/
structure Bookkept (s : State α n) : Prop where
  arranged : s.current.Arranged s.column
  linked : s.isReleased = false → s.current.Linked s.column s.driving

theorem bookkept_start (t : Tableau α n) (row : Fin n) : (start t row).Bookkept :=
  have h := Basis.linked_initial row
  ⟨h.toArranged, fun _ => h⟩

omit [Scalar α] in
/-- The variable that has just left stood in the row of the last pivot. -/
theorem inColumn_current (s : State α n) : s.current.inColumn s.column = s.basis.inRow s.row :=
  (Basis.inColumn_exchange s.basis s.row s.column s.column).trans (if_pos rfl)

/-- **The step of the bookkeeping**, whatever row is chosen. -/
theorem Bookkept.pivotAt {s : State α n} (h : s.Bookkept) (hreleased : s.isReleased = false)
    (row : Fin n) : (s.pivotAt row).Bookkept := by
  have hlinked := h.linked hreleased
  have harranged : (s.pivotAt row).current.Arranged s.driving := hlinked.arranged_exchange row
  refine ⟨harranged, fun hstays => hlinked.exchange row fun hrow => ?_⟩
  rw [isReleased, inColumn_current, Bool.eq_false_iff, ne_eq, Variable.isArtificial_iff] at hstays
  exact hstays (Or.inl hrow)

omit [Scalar α] in
theorem Bookkept.isReleased_iff {s : State α n} (h : s.Bookkept) :
    s.isReleased = true ↔ s.current.inColumn s.column = .artificial n :=
  h.arranged.isArtificial_inColumn s.column

/-! ## Traces -/

/-- The states of a run, from the given one to the last. -/
def trace : Nat → State α n → List (State α n)
  | 0, s => [s]
  | budget + 1, s =>
    match s.step with
    | .pivoted next => s :: trace budget next
    | _ => [s]

/-- The last state of a run. -/
def final : Nat → State α n → State α n
  | 0, s => s
  | budget + 1, s =>
    match s.step with
    | .pivoted next => final budget next
    | _ => s

/-- How a run ends in a state from which it does not go on. -/
def ending (s : State α n) : Ending n :=
  match s.step with
  | .released basis => .ofReleased s.tableau basis
  | .unblocked column => .ray column
  | .pivoted _ => .outOfBudget

theorem trace_succ_of_pivoted {s next : State α n} (h : s.step = .pivoted next) (budget : Nat) :
    s.trace (budget + 1) = s :: next.trace budget := by
  rw [trace, h]

theorem final_succ_of_pivoted {s next : State α n} (h : s.step = .pivoted next) (budget : Nat) :
    s.final (budget + 1) = next.final budget := by
  rw [final, h]

theorem trace_succ_of_not_pivoted {s : State α n} (h : ∀ next, s.step ≠ .pivoted next)
    (budget : Nat) : s.trace (budget + 1) = [s] := by
  rw [trace]
  split
  · rename_i next hstep
    exact absurd hstep (h next)
  · rfl

theorem final_succ_of_not_pivoted {s : State α n} (h : ∀ next, s.step ≠ .pivoted next)
    (budget : Nat) : s.final (budget + 1) = s := by
  rw [final]
  split
  · rename_i next hstep
    exact absurd hstep (h next)
  · rfl

/-- An iteration pivots or it does not. -/
theorem pivoted_or_not (s : State α n) :
    (∃ next, s.step = .pivoted next) ∨ ∀ next, s.step ≠ .pivoted next := by
  cases h : s.step with
  | released basis => exact Or.inr fun _ => by simp
  | unblocked column => exact Or.inr fun _ => by simp
  | pivoted next => exact Or.inl ⟨next, rfl⟩

theorem trace_eq_cons (s : State α n) (budget : Nat) : ∃ rest, s.trace budget = s :: rest := by
  cases budget with
  | zero => exact ⟨[], rfl⟩
  | succ budget =>
    rcases s.pivoted_or_not with ⟨next, hstep⟩ | hstep
    · exact ⟨_, trace_succ_of_pivoted hstep budget⟩
    · exact ⟨[], trace_succ_of_not_pivoted hstep budget⟩

theorem length_trace_le (s : State α n) (budget : Nat) :
    (s.trace budget).length ≤ budget + 1 := by
  induction budget generalizing s with
  | zero => simp [trace]
  | succ budget ih =>
    rcases s.pivoted_or_not with ⟨next, hstep⟩ | hstep
    · rw [trace_succ_of_pivoted hstep, List.length_cons]
      exact Nat.succ_le_succ (ih next)
    · rw [trace_succ_of_not_pivoted hstep]
      simp

/-- Each state of a trace leads to the next one. -/
theorem isChain_trace (s : State α n) (budget : Nat) :
    (s.trace budget).IsChain fun s t => s.step = .pivoted t := by
  induction budget generalizing s with
  | zero => exact List.isChain_singleton s
  | succ budget ih =>
    rcases s.pivoted_or_not with ⟨next, hstep⟩ | hstep
    · obtain ⟨rest, hrest⟩ := next.trace_eq_cons budget
      have hchain := ih next
      rw [trace_succ_of_pivoted hstep]
      rw [hrest] at hchain ⊢
      exact List.isChain_cons_cons.2 ⟨hstep, hchain⟩
    · rw [trace_succ_of_not_pivoted hstep]
      exact List.isChain_singleton s

/-- **Invariants.**  What a pivot preserves holds of every state of a run. -/
theorem forall_mem_trace {P : State α n → Prop}
    (hstep : ∀ s t, P s → s.step = .pivoted t → P t) {s : State α n} (hs : P s) (budget : Nat) :
    ∀ t ∈ s.trace budget, P t := by
  induction budget generalizing s with
  | zero =>
    intro t ht
    rwa [List.mem_singleton.1 ht]
  | succ budget ih =>
    rcases s.pivoted_or_not with ⟨next, hnext⟩ | hnext
    · rw [trace_succ_of_pivoted hnext]
      rintro t (_ | ⟨_, ht⟩)
      · exact hs
      · exact ih (hstep s next hs hnext) t ht
    · rw [trace_succ_of_not_pivoted hnext]
      intro t ht
      rwa [List.mem_singleton.1 ht]

theorem final_mem_trace (s : State α n) (budget : Nat) : s.final budget ∈ s.trace budget := by
  induction budget generalizing s with
  | zero => exact List.mem_singleton_self s
  | succ budget ih =>
    rcases s.pivoted_or_not with ⟨next, hnext⟩ | hnext
    · rw [trace_succ_of_pivoted hnext, final_succ_of_pivoted hnext]
      exact List.mem_cons_of_mem s (ih next)
    · rw [trace_succ_of_not_pivoted hnext, final_succ_of_not_pivoted hnext]
      exact List.mem_singleton_self s

/-- The last state of a run is the last of its trace. -/
theorem getLast?_trace (s : State α n) (budget : Nat) :
    (s.trace budget).getLast? = some (s.final budget) := by
  induction budget generalizing s with
  | zero => rfl
  | succ budget ih =>
    rcases s.pivoted_or_not with ⟨next, hnext⟩ | hnext
    · rw [trace_succ_of_pivoted hnext, final_succ_of_pivoted hnext, List.getLast?_cons, ih]
      rfl
    · rw [trace_succ_of_not_pivoted hnext, final_succ_of_not_pivoted hnext]
      rfl

end State

/-! ## What a run reports -/

/-- Note the pivots that have led to some states, numbered from `number` on. -/
def Journal.noteAll [Scalar α] (d : Diagnostics) : Nat → Journal n → List (State α n) → Journal n
  | _, journal, [] => journal
  | number, journal, s :: states =>
    noteAll d (number + 1) (journal.note d number s.lastPivot false s.tableau) states

theorem Journal.pivots_noteAll [Scalar α] (d : Diagnostics) (number : Nat) (journal : Journal n)
    (states : List (State α n)) : (journal.noteAll d number states).pivots.reverse =
      journal.pivots.reverse ++ states.map State.lastPivot := by
  induction states generalizing number journal with
  | nil => simp [noteAll]
  | cons s states ih =>
    rw [noteAll, ih]
    simp [note]

namespace State

variable [Scalar α]

section Run

variable (d : Diagnostics) (budget iterations : Nat) (s : State α n) (journal : Journal n)

theorem run_succ_of_pivoted {s next : State α n} (h : s.step = .pivoted next) :
    s.run d (budget + 1) iterations journal =
      next.run d budget (iterations + 1)
        (journal.note d (iterations + 2) next.lastPivot false next.tableau) := by
  rw [run, h]
  rfl

theorem run_succ_of_not_pivoted {s : State α n} (h : ∀ next, s.step ≠ .pivoted next) :
    s.run d (budget + 1) iterations journal = ⟨s.ending, iterations + 1, s.tableau, journal⟩ := by
  rw [run, ending]
  cases hstep : s.step with
  | released basis => rfl
  | unblocked column => rfl
  | pivoted next => exact absurd hstep (h next)

/-- **A run is read off its trace**, and what is said about the parts of a finish follows from
this. -/
theorem run_eq :
    s.run d budget iterations journal =
      { ending := if (s.trace budget).length ≤ budget then (s.final budget).ending else .outOfBudget
        iterations := iterations + min budget (s.trace budget).length
        tableau := (s.final budget).tableau
        journal := journal.noteAll d (iterations + 2) (s.trace budget).tail } := by
  induction budget generalizing s iterations journal with
  | zero => rfl
  | succ budget ih =>
    rcases s.pivoted_or_not with ⟨next, hstep⟩ | hstep
    · obtain ⟨rest, hrest⟩ := next.trace_eq_cons budget
      have hcount : iterations + 1 + min budget (rest.length + 1) =
          iterations + min (budget + 1) (rest.length + 1 + 1) := by omega
      rw [run_succ_of_pivoted d budget iterations journal hstep, ih, trace_succ_of_pivoted hstep,
        final_succ_of_pivoted hstep, hrest]
      simp only [List.length_cons, List.tail_cons, Nat.add_le_add_iff_right, hcount]
      rfl
    · rw [run_succ_of_not_pivoted d budget iterations journal hstep,
        trace_succ_of_not_pivoted hstep, final_succ_of_not_pivoted hstep]
      simp [Journal.noteAll]

theorem tableau_run : (s.run d budget iterations journal).tableau = (s.final budget).tableau := by
  rw [run_eq]

/-- **The ending** is that of the last state, unless the budget is spent. -/
theorem ending_run :
    (s.run d budget iterations journal).ending =
      if (s.trace budget).length ≤ budget then (s.final budget).ending else .outOfBudget := by
  rw [run_eq]

theorem iterations_run :
    (s.run d budget iterations journal).iterations =
      iterations + min budget (s.trace budget).length := by
  rw [run_eq]

/-- **The pivots** that a run notes down are those of its trace. -/
theorem pivots_run :
    (s.run d budget iterations journal).journal.pivots.reverse =
      journal.pivots.reverse ++ (s.trace budget).tail.map lastPivot := by
  rw [run_eq, Journal.pivots_noteAll]

end Run

end State

/-! ## The bookkeeping from the pivots alone -/

/-- The bookkeeping after each pivot of a list, from the bookkeeping before the first one. -/
def Basis.afterEach (b : Basis n) : List (Pivot n) → List (Basis n)
  | [] => []
  | p :: ps =>
    let next := (b.exchange p.row p.column).1
    next :: next.afterEach ps

/-- The pivots of a trace lead through the bookkeeping of its states. -/
theorem State.afterEach_trace [Scalar α] (s : State α n) (budget : Nat) :
    s.basis.afterEach ((s.trace budget).map State.lastPivot) =
      (s.trace budget).map State.current := by
  induction budget generalizing s with
  | zero => rfl
  | succ budget ih =>
    rcases s.pivoted_or_not with ⟨next, hstep⟩ | hstep
    · rw [trace_succ_of_pivoted hstep, List.map_cons, List.map_cons, Basis.afterEach]
      obtain ⟨-, row, -, rfl⟩ := step_eq_pivoted_iff.1 hstep
      exact congrArg (s.current :: ·) (ih (s.pivotAt row))
    · rw [trace_succ_of_not_pivoted hstep]
      rfl

/-- The point that is returned at an ending: only a solution is read off. -/
def Ending.point [Scalar α] (t : Tableau α n) (buffer : Point α n) : Ending n → Point α n
  | solution basis => basis.readOff t buffer
  | _ => Point.zero α n

/-! ## Where the method starts -/

namespace Lcp

variable [Scalar α] (p : Lcp α n)

/-- The tableau of a problem before the first pivot. -/
def loaded : Tableau α n := ((Tableau.zero α n).withPerturbation p.q).withMatrix p.m

/-- The state after the first pivot, if the method pivots at all. -/
def start? : Option (State α n) :=
  (p.loaded.lowestRow.filter fun lowest => lexNeg lowest.2).map fun lowest =>
    State.start p.loaded lowest.1

/-- The polynomials of the loaded tableau. -/
theorem entry_loaded (r : Fin n) (k : Fin (n + 1)) :
    p.loaded.entry r (Tableau.polynomialColumn k) =
      if k = 0 then p.q.get r else if k = r.succ then 1 else 0 := by
  have hk : (Tableau.polynomialColumn k).val = n + 1 + k.val := rfl
  rw [loaded, Tableau.entry_withMatrix, dif_neg (by omega), if_neg (by omega),
    Tableau.entry_withPerturbation, if_neg (by omega)]
  by_cases h0 : k = 0
  · rw [if_pos h0, if_pos (by rw [hk, h0, Fin.val_zero])]
  · have h0' : k.val ≠ 0 := fun h => h0 (Fin.ext h)
    rw [if_neg h0, if_neg (by omega)]
    by_cases hr : k = r.succ
    · rw [if_pos hr, if_pos (by rw [hk, hr, Fin.val_succ]; omega)]
    · have hr' : k.val ≠ r.val + 1 := fun h => hr (Fin.ext h)
      rw [if_neg hr, if_neg (by omega)]

theorem withMatrix_withPerturbation (workspace : Tableau α n) :
    (workspace.withPerturbation p.q).withMatrix p.m = p.loaded := by
  refine Tableau.ext fun r c => ?_
  rw [loaded, Tableau.entry_withMatrix, Tableau.entry_withMatrix]
  split
  · rfl
  · split
    · rfl
    · have hc : ¬ c.val ≤ n := by omega
      rw [Tableau.entry_withPerturbation, Tableau.entry_withPerturbation, if_neg hc, if_neg hc]

/-- The first row depends on the vector alone. -/
theorem lowestRow_withPerturbation (workspace : Tableau α n) :
    (workspace.withPerturbation p.q).lowestRow = p.loaded.lowestRow := by
  have hpolynomial : (workspace.withPerturbation p.q).polynomial = p.loaded.polynomial := by
    funext r
    refine congrArg List.ofFn (funext fun k => ?_)
    have hk : ¬ (Tableau.polynomialColumn k).val ≤ n := by
      simp only [Tableau.polynomialColumn]
      omega
    rw [← p.withMatrix_withPerturbation workspace, Tableau.entry_withMatrix, dif_neg (by omega),
      if_neg (by omega)]
  rw [Tableau.lowestRow, Tableau.lowestRow, hpolynomial]

variable (settings : Settings) (d : Diagnostics) (workspace : Tableau α n) (buffer : Point α n)

/-- If the method does not pivot, `q` itself is the solution. -/
theorem run_of_start_eq_none (h : p.start? = none) :
    (p.run settings d workspace buffer).1 = p.trivialOutcome settings.recordSizes := by
  have hnone : (p.loaded.lowestRow.filter fun lowest => lexNeg lowest.2) = none := by
    simpa [start?] using h
  rw [run, lowestRow_withPerturbation]
  simp only [hnone]

/-- If the method pivots, its result is that of the run from the first state. -/
theorem run_of_start_eq_some {s : State α n} (h : p.start? = some s) :
    (p.run settings d workspace buffer).1 =
      outcomeOfFinish (d.enableIf settings.verbose) (settings.budget n)
        (s.run (d.enableIf settings.verbose) (settings.budget n) 0
          ((Journal.blank settings.recordSizes).note (d.enableIf settings.verbose) 1 s.lastPivot
            true s.tableau)) buffer := by
  obtain ⟨⟨row, least⟩, hsome, rfl⟩ := Option.map_eq_some_iff.1 h
  rw [run, lowestRow_withPerturbation]
  simp only [hsome, pivotFrom, withMatrix_withPerturbation]
  rfl

/-! ### What the result says about the trace -/

section Outcome

variable {p settings d workspace buffer} {s : State α n}

theorem status_run (h : p.start? = some s) :
    (p.run settings d workspace buffer).1.status =
      if (s.trace (settings.budget n)).length ≤ settings.budget n then
        (s.final (settings.budget n)).ending.status
      else .failedToConverge := by
  rw [run_of_start_eq_some p settings d workspace buffer h]
  simp only [outcomeOfFinish, State.ending_run]
  split <;> rfl

theorem iterations_run (h : p.start? = some s) :
    (p.run settings d workspace buffer).1.cost.iterations =
      min (settings.budget n) (s.trace (settings.budget n)).length := by
  rw [run_of_start_eq_some p settings d workspace buffer h]
  simp only [outcomeOfFinish, State.iterations_run, Nat.zero_add]

omit [Scalar α] in
theorem pivots_close (j : Journal n) (d : Diagnostics) (e : Event) :
    (j.close d e).pivots = j.pivots := by
  rw [Journal.close]
  split <;> rfl

theorem pivots_outcomeOfFinish (f : Finish α n) (d : Diagnostics) (budget : Nat)
    (buffer : Point α n) :
    (outcomeOfFinish d budget f buffer).pivots = f.journal.pivots.reverse := by
  simp only [outcomeOfFinish]
  split
  · rw [pivots_close]
  · rfl

theorem pivots_run (h : p.start? = some s) :
    (p.run settings d workspace buffer).1.pivots =
      (s.trace (settings.budget n)).map State.lastPivot := by
  obtain ⟨rest, hrest⟩ := s.trace_eq_cons (settings.budget n)
  rw [run_of_start_eq_some p settings d workspace buffer h, pivots_outcomeOfFinish,
    State.pivots_run, hrest]
  simp [Journal.note, Journal.blank]

/-- The pivots are counted. -/
theorem cost_pivots_run :
    (p.run settings d workspace buffer).1.cost.pivots =
      (p.run settings d workspace buffer).1.pivots.length := by
  cases hstart : p.start? with
  | none =>
    rw [run_of_start_eq_none p settings d workspace buffer hstart]
    rfl
  | some s =>
    rw [run_of_start_eq_some p settings d workspace buffer hstart, pivots_outcomeOfFinish,
      List.length_reverse]
    rfl

theorem point_run (h : p.start? = some s) :
    (p.run settings d workspace buffer).1.point =
      if (s.trace (settings.budget n)).length ≤ settings.budget n then
        (s.final (settings.budget n)).ending.point (s.final (settings.budget n)).tableau buffer
      else Point.zero α n := by
  have hpoint : ∀ (f : Finish α n) (d : Diagnostics) (budget : Nat),
      (outcomeOfFinish d budget f buffer).point = f.ending.point f.tableau buffer :=
    fun f d budget => rfl
  rw [run_of_start_eq_some p settings d workspace buffer h, hpoint, State.ending_run,
    State.tableau_run]
  by_cases hlength : (s.trace (settings.budget n)).length ≤ settings.budget n
  · rw [if_pos hlength, if_pos hlength]
  · rw [if_neg hlength, if_neg hlength]
    rfl

end Outcome

/-! ### The states of a solve -/

/-- The states that a solve passes through, one for each pivot; none if it does not pivot. -/
def states (budget : Nat) : List (State α n) := p.start?.elim [] fun s => s.trace budget

theorem mem_states_iff {budget : Nat} {t : State α n} :
    t ∈ p.states budget ↔ ∃ s, p.start? = some s ∧ t ∈ s.trace budget := by
  rw [states]
  cases p.start? <;> simp

/-- The first state comes from the loaded tableau. -/
theorem exists_start_of_start_eq_some {s : State α n} (h : p.start? = some s) :
    ∃ row, s = State.start p.loaded row := by
  obtain ⟨lowest, -, rfl⟩ := Option.map_eq_some_iff.1 h
  exact ⟨lowest.1, rfl⟩

/-- The bookkeeping of every state is in order. -/
theorem bookkept_of_mem_trace {s t : State α n} {budget : Nat} (h : p.start? = some s)
    (ht : t ∈ s.trace budget) : t.Bookkept := by
  obtain ⟨row, rfl⟩ := p.exists_start_of_start_eq_some h
  refine State.forall_mem_trace (fun s t hs hstep => ?_) (State.bookkept_start _ row) budget t ht
  obtain ⟨hreleased, row, -, rfl⟩ := State.step_eq_pivoted_iff.1 hstep
  exact hs.pivotAt hreleased row

theorem states_of_start_eq_some {s : State α n} (h : p.start? = some s) (budget : Nat) :
    p.states budget = s.trace budget := by
  rw [states, h, Option.elim_some]

/-- A solve without states does not pivot. -/
theorem states_eq_nil_iff {budget : Nat} : p.states budget = [] ↔ p.start? = none := by
  cases hstart : p.start? with
  | none => simp [states, hstart]
  | some s =>
    obtain ⟨rest, hrest⟩ := s.trace_eq_cons budget
    simp [states_of_start_eq_some p hstart, hrest]

/-- **The pivots of the result** are those of the states. -/
theorem pivots_run_eq :
    (p.run settings d workspace buffer).1.pivots =
      (p.states (settings.budget n)).map State.lastPivot := by
  cases hstart : p.start? with
  | none =>
    rw [run_of_start_eq_none p settings d workspace buffer hstart,
      p.states_eq_nil_iff.2 hstart]
    rfl
  | some s => rw [pivots_run hstart, p.states_of_start_eq_some hstart]

/-- **The iterations of the result**: one for each state, as far as the budget goes. -/
theorem iterations_run_eq :
    (p.run settings d workspace buffer).1.cost.iterations =
      min (settings.budget n) (p.states (settings.budget n)).length := by
  cases hstart : p.start? with
  | none =>
    rw [run_of_start_eq_none p settings d workspace buffer hstart,
      p.states_eq_nil_iff.2 hstart]
    exact (Nat.min_zero _).symm
  | some s => rw [iterations_run hstart, p.states_of_start_eq_some hstart]

end Lcp

end Complementarity
