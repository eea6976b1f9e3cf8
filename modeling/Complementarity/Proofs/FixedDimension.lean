import Complementarity.FixedSolver
import Complementarity.Proofs.Reuse

/-!
# Solvers of a fixed dimension agree with the others

A solver of a fixed dimension writes into vectors that hold old values, stores the matrix before
anything is checked, and keeps the cost of its last solve when a problem is refused.  What is proved
here holds for every kind of scalar and every dimension, zero included:

* **the same problem** — `Solver.solve_ofLcp_fst`: a problem of known shape gets the same answer
  when its shape has to be checked first;
* **a call** — `FixedSolver.follows_solveInto`: it answers as a solver does, and an error leaves the
  caller's vectors and the cost as they were;
* **calls** — `FixedSolver.follows_after_calls`: the same after any other calls.
-/

namespace Complementarity

variable {α : Type} {n : Nat}

/-! ## Problems of known shape -/

theorem Grid.toDense_ofDense {r c : Nat} (m : Dense α r c) : (Grid.ofDense m).toDense rfl rfl = m :=
  Dense.ext fun i j => Dense.entry_ofFn _ i j

theorem Problem.sized_of_dim_eq_zero {p : Problem α} (h : p.dim = 0) :
    p.sized = .error .emptyProblem := by
  rw [sized, if_pos h]

theorem Problem.sized_of_shape {p : Problem α} (h : p.dim ≠ 0) (hrows : p.m.rows = p.dim)
    (hcols : p.m.cols = p.dim) : p.sized = .ok ⟨p.constants, p.m.toDense hrows hcols⟩ := by
  rw [sized, if_neg h, dif_pos hrows, dif_pos hcols]

section Answers

variable [Scalar α]

/-- The answer to a problem of known shape, when the shape has to be checked first. -/
theorem Solver.solve_ofLcp_fst (s : Solver α) (q : Array α) (m : Dense α q.size q.size) :
    (s.solve (Problem.ofLcp (⟨⟨q, rfl⟩, m⟩ : Lcp α q.size))).1 =
      (s.solveSized (⟨⟨q, rfl⟩, m⟩ : Lcp α q.size)).1 := by
  by_cases hdim : (Problem.ofLcp (⟨⟨q, rfl⟩, m⟩ : Lcp α q.size)).dim = 0
  · have hrefusal : (⟨⟨q, rfl⟩, m⟩ : Lcp α q.size).refusal? s.settings = some .emptyProblem := by
      rw [Lcp.refusal?, Lcp.fault?, if_pos (show q.size = 0 from hdim), Option.some_or]
    rw [s.solve_of_sized_error (Problem.sized_of_dim_eq_zero hdim), solveSized,
      s.solveInto_of_refusal _ hrefusal]
    rfl
  · have hsized : (Problem.ofLcp (⟨⟨q, rfl⟩, m⟩ : Lcp α q.size)).sized = .ok ⟨⟨q, rfl⟩, m⟩ :=
      (Problem.sized_of_shape hdim rfl rfl).trans <|
        congrArg (fun m => Except.ok (⟨⟨q, rfl⟩, m⟩ : Lcp α q.size)) (Grid.toDense_ofDense m)
    rw [solve, hsized]
    rfl

/-- A problem of known shape gets the same result if its shape has to be checked first. -/
theorem Solver.exists_solve_ofLcp (s : Solver α) {p : Lcp α n} {o : Outcome α n}
    (h : (s.solveSized p).1 = .ok o) :
    ∃ o', (s.solve (.ofLcp p)).1 = .ok o' ∧ o'.status = o.status ∧ o'.cost = o.cost ∧
      o'.point.w.toList = o.point.w.toList ∧ o'.point.z.toList = o.point.z.toList := by
  obtain ⟨⟨q, rfl⟩, m⟩ := p
  rw [Solver.solve_ofLcp_fst]
  exact ⟨o, h, rfl, rfl, rfl, rfl⟩

namespace FixedSolver

omit [Scalar α] in
/-- The stored matrix is the one of the call, whatever was stored before. -/
theorem problem_store (s : FixedSolver α n) (p : Lcp α n) :
    (⟨p.q, (s.store p.m).matrix⟩ : Lcp α n) = p := by
  have hmatrix : (s.store p.m).matrix = p.m := Dense.ext fun i j => Dense.entry_ofFn _ i j
  rw [hmatrix]

/-! ## A call -/

/-- How a call ends for which a solver has the given answer: with the same status, the point in the
caller's vectors and the cost in the solver's memory, or with the same error and nothing changed. -/
def Reply.Follows (r : Reply α n) (before : FixedSolver α n) (buffer : Point α n) {k : Nat}
    (answer : Except InputError (Outcome α k)) : Prop :=
  (∃ o, answer = .ok o ∧ r.answer.map Outcome.status = .ok o.status ∧
    r.buffer.w.toArray = o.point.w.toArray ∧ r.buffer.z.toArray = o.point.z.toArray ∧
    r.solver.lastCost = o.cost) ∨
  ∃ e, answer = .error e ∧ r.answer.map Outcome.status = .error e ∧ r.buffer = buffer ∧
    r.solver.lastCost = before.lastCost

/-- **A call.**  It ends as the answer of the solver inside prescribes. -/
theorem follows_solveInto (s : FixedSolver α n) (p : Lcp α n) (buffer : Point α n) :
    (s.solveInto p buffer).Follows s buffer (s.solver.solveSized p).1 := by
  cases hrefusal : p.refusal? s.solver.settings with
  | some e =>
    have hcall := s.solver.solveInto_of_refusal buffer hrefusal
    rw [solveInto_of_error s ((s.problem_store p).symm ▸ hcall)]
    exact Or.inr ⟨e, congrArg Prod.fst (s.solver.solveInto_of_refusal _ hrefusal), rfl, rfl, rfl⟩
  | none =>
    have hanswer := Solver.solveInto_of_refusal_eq_none hrefusal buffer
    have hcall : s.solver.solveInto ⟨p.q, (s.store p.m).matrix⟩ buffer =
        (.ok (p.run s.solver.settings s.solver.diagnostics (s.solver.workspace n) buffer).1,
          (s.solver.solveInto p buffer).2) := by
      rw [problem_store, ← hanswer]
    rw [solveInto_of_ok s hcall]
    -- the run inside a solver writes into other vectors, which does not matter
    refine Or.inl ⟨_, Solver.solveInto_of_refusal_eq_none hrefusal _, ?_⟩
    rw [p.run_fst_eq _ _ _ (s.solver.workspace n) (Point.zero α n) buffer]
    exact ⟨rfl, rfl, rfl, rfl⟩

/-- A call keeps the settings and the diagnostics of the solver inside. -/
theorem solveInto_solver (s : FixedSolver α n) (p : Lcp α n) (buffer : Point α n) :
    (s.solveInto p buffer).solver.solver.settings = s.solver.settings ∧
      (s.solveInto p buffer).solver.solver.diagnostics = s.solver.diagnostics := by
  have hkeeps := s.solver.solveInto_snd ⟨p.q, (s.store p.m).matrix⟩ buffer
  cases hcall : s.solver.solveInto ⟨p.q, (s.store p.m).matrix⟩ buffer with
  | mk answer solver =>
    rw [hcall] at hkeeps
    cases answer with
    | error e =>
      rw [solveInto_of_error s hcall]
      exact hkeeps
    | ok o =>
      rw [solveInto_of_ok s hcall]
      exact hkeeps

/-! ## Calls -/

/-- Calls keep the settings and the diagnostics of the solver inside. -/
theorem afterCalls_solver (s : FixedSolver α n) (calls : List (Lcp α n × Point α n)) :
    (s.afterCalls calls).solver.settings = s.solver.settings ∧
      (s.afterCalls calls).solver.diagnostics = s.solver.diagnostics := by
  induction calls generalizing s with
  | nil => exact ⟨rfl, rfl⟩
  | cons call rest ih =>
    obtain ⟨hsettings, hdiagnostics⟩ := s.solveInto_solver call.1 call.2
    rw [← hsettings, ← hdiagnostics]
    exact ih (s.solveInto call.1 call.2).solver

/-- **Both kinds of solver agree.**  After any calls, a call ends as a solver with the same settings
answers that has not solved anything yet: with the same status, the whole point in the caller's
vectors, whatever they held, and the same cost, or with the same error, the vectors and the cost of
the last solve being as they were. -/
theorem follows_after_calls (env : Environment) (settings : Settings)
    (calls : List (Lcp α n × Point α n)) (p : Lcp α n) (buffer : Point α n) :
    (((withSettings α n env settings).afterCalls calls).solveInto p buffer).Follows
      ((withSettings α n env settings).afterCalls calls) buffer
      ((Solver.withSettings α env settings).solve (.ofLcp p)).1 := by
  obtain ⟨hsettings, hdiagnostics⟩ := (withSettings α n env settings).afterCalls_solver calls
  have hfollows := ((withSettings α n env settings).afterCalls calls).follows_solveInto p buffer
  rw [Solver.solveSized_fst_congr hsettings hdiagnostics] at hfollows
  obtain ⟨⟨q, rfl⟩, m⟩ := p
  rw [Solver.solve_ofLcp_fst]
  exact hfollows

end FixedSolver

end Answers

end Complementarity
