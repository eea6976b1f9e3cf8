import Complementarity.Run.Memory

/-!
# Solvers

A solver is made once and used for many problems.  It holds the settings, the diagnostics that the
environment asked for when it was made, and the memory in which it solves, which later solves reuse
as they find it.

A refused problem leaves the solver as it was.  `Solver.Request` lists what can be asked of a
solver, so that a history is a list of requests.
-/

namespace Complementarity

/-- Settings, diagnostics and a memory for reuse. -/
structure Solver (α : Type) where
  settings : Settings
  diagnostics : Diagnostics
  /-- The dimension of the last solve. -/
  dim : Nat
  memory : Memory α dim

/-- What is wrong with a problem of known shape or else with the settings. -/
def Lcp.refusal? {α : Type} [Scalar α] {n : Nat} (p : Lcp α n) (settings : Settings) :
    Option InputError :=
  p.fault?.or (InputError.ofSettings? settings)

namespace Solver

variable {α : Type} [Scalar α] {n : Nat}

/-- A solver that has not solved anything yet. -/
def fresh (α : Type) [Scalar α] (settings : Settings) (diagnostics : Diagnostics) : Solver α where
  settings := settings
  diagnostics := diagnostics
  dim := 0
  memory := .blank α

/-- A solver with the given settings, made in an environment. -/
def withSettings (α : Type) [Scalar α] (env : Environment) (settings : Settings) : Solver α :=
  fresh α settings (.ofEnvironment env)

/-- A solver with the default settings of the environment in which it is made. -/
def new (α : Type) [Scalar α] (env : Environment) : Solver α :=
  withSettings α env (.ofEnvironment env)

/-- The same solver with other settings. -/
def setSettings (s : Solver α) (settings : Settings) : Solver α := { s with settings := settings }

/-- The tableau in which a problem of dimension `n` is solved: the one at hand if it fits. -/
def workspace (s : Solver α) (n : Nat) : Tableau α n := s.memory.tableau.fitted n

/-- Solve a problem that is known to be acceptable, writing into a pair of vectors. -/
def run (s : Solver α) (p : Lcp α n) (buffer : Point α n) : Outcome α n × Solver α :=
  let (outcome, memory) := p.runIn s.settings s.diagnostics (s.memory.fitted n) buffer
  (outcome, { s with dim := n, memory := memory })

/-- Solve a problem of known shape, writing into a pair of vectors. -/
def solveInto (s : Solver α) (p : Lcp α n) (buffer : Point α n) :
    Except InputError (Outcome α n) × Solver α :=
  match p.refusal? s.settings with
  | some error => (.error error, s)
  | none =>
    let (outcome, next) := s.run p buffer
    (.ok outcome, next)

/-- Solve a problem of known shape. -/
def solveSized (s : Solver α) (p : Lcp α n) : Except InputError (Outcome α n) × Solver α :=
  s.solveInto p (Point.zero α n)

/-- Solve a problem. -/
def solve (s : Solver α) (p : Problem α) : Except InputError (Outcome α p.dim) × Solver α :=
  match p.sized with
  | .error error => (.error error, s)
  | .ok sized => s.solveSized sized

/-- A problem whose shape is wrong leaves the solver as it was. -/
theorem solve_of_sized_error (s : Solver α) {p : Problem α} {e : InputError}
    (h : p.sized = .error e) : s.solve p = (.error e, s) := by
  simp [solve, h]

/-- A problem that is refused leaves the solver as it was. -/
theorem solveInto_of_refusal (s : Solver α) {p : Lcp α n} {e : InputError} (buffer : Point α n)
    (h : p.refusal? s.settings = some e) : s.solveInto p buffer = (.error e, s) := by
  simp [solveInto, h]

/-! ## Histories -/

/-- What can be asked of a solver. -/
inductive Request (α : Type) where
  | solve (p : Problem α)
  | setSettings (settings : Settings)
  /-- Go on with a copy. -/
  | duplicate

/-- The solver after a request. -/
def perform (s : Solver α) : Request α → Solver α
  | .solve p => (s.solve p).2
  | .setSettings settings => s.setSettings settings
  | .duplicate => s

/-- The solver after a list of requests. -/
def performAll (s : Solver α) (requests : List (Request α)) : Solver α :=
  requests.foldl perform s

end Solver

/-- Solve a single problem with a solver of its own. -/
def Problem.solve {α : Type} [Scalar α] (p : Problem α) (env : Environment) (settings : Settings) :
    Except InputError (Outcome α p.dim) :=
  ((Solver.withSettings α env settings).solve p).1

end Complementarity
