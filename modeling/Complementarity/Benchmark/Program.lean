import Complementarity.Benchmark.Arguments
import Complementarity.Benchmark.Conversion
import Complementarity.Benchmark.Report
import Complementarity.Random.ChaCha
import Complementarity.Scalar.Instances
import Complementarity.Verification

/-!
# The benchmark program

Generate the problems of the chosen families, solve and verify each of them with the chosen scalar
types, and report on every family.  One solver for each scalar type serves a whole family.

The only effect is that of a stopwatch, so the program is written over any monad that has one; what
it prints and how it ends is its result.
-/

namespace Complementarity.Benchmark

open Complementarity.Random

/-- A way to run a computation that also tells how many nanoseconds it took. -/
structure Stopwatch (m : Type → Type) where
  time : {β : Type} → (Unit → β) → m (β × Nat)

/-- A stopwatch that always shows zero. -/
def Stopwatch.stopped : Stopwatch Id where
  time compute := (compute (), 0)

/-- Why the program fails. -/
inductive Failure where
  | zeroDimension
  | conversion (label : String) (error : ConversionError)
  /-- A problem is refused by the solver for the named scalar type. -/
  | refused (scalar label : String) (error : InputError)
  /-- So many solutions failed verification. -/
  | rejected (count : Nat)

/-- The text of a failure.  The error behind a refusal is given as its cause. -/
def Failure.message : Failure → String
  | zeroDimension => "--dim must be at least 1"
  | conversion label error => error.message label
  | refused scalar label error =>
    s!"{scalar} solve of {label}\n\nCaused by:\n    {error.message}"
  | rejected count => s!"{count} solutions failed verification"

/-- What the program prints, the reports in it, and why the program fails if it does. -/
structure Transcript where
  lines : List String
  reports : List Report
  failure : Option Failure

/-- The exit code of the program. -/
def Transcript.exitCode (t : Transcript) : UInt32 := if t.failure.isSome then 1 else 0

/-- The settings of both solvers. -/
def Arguments.settings (a : Arguments) : Settings where
  maxIter := a.maxIter
  recordSizes := true
  verbose := a.verbose

/-! ## One problem -/

/-- Two solvers and the report on the problems they have solved. -/
structure Progress where
  float : Solver Float
  exact : Solver Rat
  report : Report

/-- The state before the first problem of a family. -/
def Progress.start (family : Family) (env : Environment) (settings : Settings) : Progress where
  float := .withSettings Float env settings
  exact := .withSettings Rat env settings
  report := { family := family.name }

variable {m : Type → Type} [Monad m]

/-- Convert, solve and verify one problem. -/
def trial {α : Type} [Scalar α] (watch : Stopwatch m) (name : String) (solver : Solver α)
    (tolerance : List α → α) (g : Generated) : m (Except Failure (Trial × Solver α)) :=
  match convert α g.data with
  | .error error => return .error (.conversion g.label error)
  | .ok p => do
    let ((answer, next), elapsed) ←
      watch.time fun _ => solver.verifySized p (tolerance p.entries)
    return match answer with
      | .error error => .error (.refused name g.label error)
      | .ok verified =>
        .ok (⟨verified.outcome.status, verified.outcome.cost, verified.accepted, elapsed⟩, next)

/-- A problem solved with binary64 numbers, if these are chosen. -/
def Progress.solveFloat (p : Progress) (watch : Stopwatch m) (choice : ScalarSelection)
    (g : Generated) : m (Except Failure (Progress × Option Status)) := do
  if choice.usesDouble then
    return (← trial watch "f64" p.float toleranceFor g).map fun (trial, next) =>
      ({ p with float := next, report.float := p.report.float.record trial }, some trial.status)
  else return .ok (p, none)

/-- A problem solved with rationals, if these are chosen; nothing is tolerated. -/
def Progress.solveExact (p : Progress) (watch : Stopwatch m) (choice : ScalarSelection)
    (g : Generated) : m (Except Failure (Progress × Option Status)) := do
  if choice.usesRational then
    return (← trial watch "rational" p.exact (fun _ => 0) g).map fun (trial, next) =>
      ({ p with exact := next, report.exact := p.report.exact.record trial }, some trial.status)
  else return .ok (p, none)

/-- Note down two different results for one problem. -/
def Report.compare (r : Report) (label : String) : Option Status → Option Status → Report
  | some float, some exact =>
    if float = exact then r
    else { r with disagreements :=
      r.disagreements ++ [s!"{label}: f64 {float.text} vs rational {exact.text}"] }
  | _, _ => r

/-- Solve one problem with the chosen scalar types. -/
def Progress.advance (p : Progress) (watch : Stopwatch m) (choice : ScalarSelection)
    (g : Generated) : m (Except Failure Progress) := ExceptT.run do
  let counted := { p with report.instances := p.report.instances + 1 }
  let (p, float) ← ExceptT.mk (counted.solveFloat watch choice g)
  let (p, exact) ← ExceptT.mk (p.solveExact watch choice g)
  return { p with report := p.report.compare g.label float exact }

/-! ## Families -/

/-- Solve the problems of a family. -/
def reportOn (watch : Stopwatch m) (env : Environment) (args : Arguments) (family : Family)
    (problems : List Generated) : m (Except Failure Report) := ExceptT.run do
  let final ← problems.foldlM (fun p g => ExceptT.mk (p.advance watch args.scalar g))
    (Progress.start family env args.settings)
  return final.report

/-- Report on families one after the other, with problems drawn from one source, as far as no
problem is refused. -/
def reportOnAll {σ : Type} [Source σ] (watch : Stopwatch m) (env : Environment)
    (args : Arguments) : List Family → σ → m (List Report × Option Failure)
  | [], _ => return ([], none)
  | family :: families, source => do
    let (problems, source) := (family.instances args.dim args.count).run source
    match ← reportOn watch env args family problems with
    | .error failure => return ([], some failure)
    | .ok report =>
      let (reports, failure) ← reportOnAll watch env args families source
      return (report :: reports, failure)

/-- The lines with which a run begins. -/
def Arguments.header (a : Arguments) : List String :=
  ["Lemke LCP Benchmarks", "====================",
    s!"family={a.family.tag} dim={a.dim} count={a.count} seed={a.seed} scalar={a.scalar.tag}"]

/-- The lines with which a run ends. -/
def closing : List String := ["", rule, "Benchmarks complete", rule]

/-- What is printed with these reports, when a failure has kept the program from going on or nothing
has. -/
def Arguments.transcript (a : Arguments) (reports : List Report) :
    Option Failure → Transcript
  | some failure => ⟨a.header ++ reports.flatMap Report.lines, reports, some failure⟩
  | none =>
    let count := reports.foldl (fun count report => count + report.rejections) 0
    ⟨a.header ++ reports.flatMap Report.lines ++ closing, reports,
      if count = 0 then none else some (.rejected count)⟩

/-- Run the program on problems drawn from a source. -/
def runWith {σ : Type} [Source σ] (watch : Stopwatch m) (env : Environment) (args : Arguments)
    (source : σ) : m Transcript := do
  if args.dim = 0 then return ⟨[], [], some .zeroDimension⟩
  else
    let (reports, failure) ← reportOnAll watch env args args.family.families source
    return args.transcript reports failure

/-- Run the program on the problems that belong to the seed. -/
def run (watch : Stopwatch m) (env : Environment) (args : Arguments) : m Transcript :=
  runWith watch env args (ChaCha.ofSeed (UInt64.ofNat args.seed))

end Complementarity.Benchmark
