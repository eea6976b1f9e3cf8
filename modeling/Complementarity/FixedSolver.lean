import Complementarity.Solver

/-!
# Solvers of a fixed dimension

A solver for problems of one dimension that writes its results into a pair of vectors owned by the
caller.  It keeps a copy of the matrix that it was last given, whether or not the problem was
refused, and remembers what its last successful solve has cost.  A refused problem changes neither
the vectors nor that cost.
-/

namespace Complementarity

/-- A solver for problems of dimension `n`, the matrix of its last call, and the cost of its last
solve. -/
structure FixedSolver (α : Type) (n : Nat) where
  solver : Solver α
  matrix : Dense α n n
  lastCost : Cost := {}

namespace FixedSolver

variable {α : Type} [Scalar α] {n : Nat}

/-- A solver with the given settings, made in an environment. -/
def withSettings (α : Type) [Scalar α] (n : Nat) (env : Environment) (settings : Settings) :
    FixedSolver α n where
  solver := .withSettings α env settings
  matrix := Dense.ofFn fun _ _ => 0

/-- A solver with the default settings of the environment in which it is made. -/
def new (α : Type) [Scalar α] (n : Nat) (env : Environment) : FixedSolver α n :=
  withSettings α n env (.ofEnvironment env)

/-- What a call leaves behind: its answer, the caller's vectors, and the solver. -/
structure Reply (α : Type) (n : Nat) where
  answer : Except InputError (Outcome α n)
  buffer : Point α n
  solver : FixedSolver α n

/-- Write the entries of a matrix over those of the stored one. -/
def store (s : FixedSolver α n) (m : Dense α n n) : FixedSolver α n :=
  { s with matrix := Dense.ofFn fun i j => m.entry i j }

/-- Solve a problem and write the result into the caller's vectors.  The matrix is stored before
anything is checked, and it is the stored one that is checked and solved with. -/
def solveInto (s : FixedSolver α n) (p : Lcp α n) (buffer : Point α n) : Reply α n :=
  let stored := s.store p.m
  match stored.solver.solveInto ⟨p.q, stored.matrix⟩ buffer with
  | (.error error, solver) => ⟨.error error, buffer, { stored with solver := solver }⟩
  | (.ok outcome, solver) =>
    ⟨.ok outcome, outcome.point, { stored with solver := solver, lastCost := outcome.cost }⟩

theorem solveInto_of_error (s : FixedSolver α n) {p : Lcp α n} {buffer : Point α n}
    {e : InputError} {solver : Solver α}
    (h : s.solver.solveInto ⟨p.q, (s.store p.m).matrix⟩ buffer = (.error e, solver)) :
    s.solveInto p buffer = ⟨.error e, buffer, { s.store p.m with solver := solver }⟩ := by
  have hstored : (s.store p.m).solver = s.solver := rfl
  simp only [solveInto, hstored, h]

theorem solveInto_of_ok (s : FixedSolver α n) {p : Lcp α n} {buffer : Point α n}
    {o : Outcome α n} {solver : Solver α}
    (h : s.solver.solveInto ⟨p.q, (s.store p.m).matrix⟩ buffer = (.ok o, solver)) :
    s.solveInto p buffer =
      ⟨.ok o, o.point, { s.store p.m with solver := solver, lastCost := o.cost }⟩ := by
  have hstored : (s.store p.m).solver = s.solver := rfl
  simp only [solveInto, hstored, h]

/-- The solver after a list of calls, each on a problem and with vectors of its own. -/
def afterCalls (s : FixedSolver α n) (calls : List (Lcp α n × Point α n)) : FixedSolver α n :=
  calls.foldl (fun s call => (s.solveInto call.1 call.2).solver) s

end FixedSolver

end Complementarity
