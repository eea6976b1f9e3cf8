import Complementarity.Benchmark.Program

/-!
# The command line

`main` parses the arguments, runs the benchmark program with a real stopwatch and prints what it
has to say.  The exit code is 0 for success, 1 for a failure and 2 for arguments that are not
understood.
-/

namespace Complementarity

open Benchmark

/-- A stopwatch that reads the monotonic clock. -/
def clock : Stopwatch IO where
  time compute := do
    let start ← IO.monoNanosNow
    let result ← IO.lazyPure compute
    let stop ← IO.monoNanosNow
    return (result, stop - start)

/-- The variables of the process that concern a solver. -/
def readEnvironment : IO Environment := do
  return {
    maxIter := ← IO.getEnv Environment.maxIterName
    diagnostics := ← IO.getEnv Environment.diagnosticsName
    diagnosticsEvery := ← IO.getEnv Environment.diagnosticsEveryName }

/-- The line that is printed if the arguments are not understood. -/
def usage : String :=
  "usage: [--family pd|psd|murty|random|all] [--dim N] [--count N] [--seed N] " ++
    "[--scalar f64|rational|both] [--max-iter N] [--verbose]"

/-- Run the benchmark program on command line arguments. -/
def runBenchmark (arguments : List String) : IO UInt32 := do
  match Arguments.parse? arguments with
  | none =>
    IO.eprintln usage
    return 2
  | some args =>
    let transcript ← Benchmark.run clock (← readEnvironment) args
    transcript.lines.forM fun line => IO.println line
    transcript.failure.forM fun failure => IO.eprintln s!"Error: {failure.message}"
    return transcript.exitCode

end Complementarity

/-- The entry point of the program. -/
def main (arguments : List String) : IO UInt32 := Complementarity.runBenchmark arguments
