import Complementarity.Basis
import Complementarity.Benchmark.Arguments
import Complementarity.Benchmark.Conversion
import Complementarity.Benchmark.Family
import Complementarity.Benchmark.Generated
import Complementarity.Benchmark.Program
import Complementarity.Benchmark.Report
import Complementarity.Binary.Convert
import Complementarity.Binary.Format
import Complementarity.Coordinates
import Complementarity.Decimal.Fixed
import Complementarity.Decimal.Shortest
import Complementarity.Dense
import Complementarity.Diagnostics
import Complementarity.Environment
import Complementarity.Event
import Complementarity.FixedSolver
import Complementarity.Lex
import Complementarity.Main
import Complementarity.Metrics
import Complementarity.Problem
import Complementarity.Proofs.Bookkeeping
import Complementarity.Proofs.Checker
import Complementarity.Proofs.Completeness
import Complementarity.Proofs.Conversion
import Complementarity.Proofs.DefaultBudget
import Complementarity.Proofs.Dictionary
import Complementarity.Proofs.DoubleValues
import Complementarity.Proofs.Doubles
import Complementarity.Proofs.Encoding
import Complementarity.Proofs.ExactBenchmark
import Complementarity.Proofs.ExactConversion
import Complementarity.Proofs.ExactOperations
import Complementarity.Proofs.ExactRuns
import Complementarity.Proofs.Exchange
import Complementarity.Proofs.Exits
import Complementarity.Proofs.Exponential
import Complementarity.Proofs.Feasibility
import Complementarity.Proofs.FixedDimension
import Complementarity.Proofs.GeneratedClasses
import Complementarity.Proofs.Generators
import Complementarity.Proofs.Guarded
import Complementarity.Proofs.InPlace
import Complementarity.Proofs.Infinitesimal
import Complementarity.Proofs.IntegerData
import Complementarity.Proofs.Invariants
import Complementarity.Proofs.Lexicographic
import Complementarity.Proofs.Loops
import Complementarity.Proofs.MatrixClasses
import Complementarity.Proofs.Memory
import Complementarity.Proofs.Minors
import Complementarity.Proofs.NoCycling
import Complementarity.Proofs.Observers
import Complementarity.Proofs.Pairing
import Complementarity.Proofs.Path
import Complementarity.Proofs.Perturbation
import Complementarity.Proofs.Ray
import Complementarity.Proofs.Refusals
import Complementarity.Proofs.Representable
import Complementarity.Proofs.Reuse
import Complementarity.Proofs.RoundTrip
import Complementarity.Proofs.Scaling
import Complementarity.Proofs.Simulation
import Complementarity.Proofs.Sizes
import Complementarity.Proofs.Solution
import Complementarity.Proofs.Threshold
import Complementarity.Proofs.Totality
import Complementarity.Proofs.Trace
import Complementarity.Proofs.Traversal
import Complementarity.Proofs.Truncation
import Complementarity.Proofs.Verdict
import Complementarity.Proofs.VertexCount
import Complementarity.Proofs.Vertices
import Complementarity.Proofs.WeakOrder
import Complementarity.Proofs.Zigzag
import Complementarity.Random.ChaCha
import Complementarity.Random.Uniform
import Complementarity.Rounding
import Complementarity.Run.Basic
import Complementarity.Run.Guarded
import Complementarity.Run.Journal
import Complementarity.Run.Memory
import Complementarity.Run.Scan
import Complementarity.Run.State
import Complementarity.Scalar.Basic
import Complementarity.Scalar.Instances
import Complementarity.Settings
import Complementarity.Solver
import Complementarity.Status
import Complementarity.Tableau.Basic
import Complementarity.Tableau.Checked
import Complementarity.Tableau.InPlace
import Complementarity.Text.Blank
import Complementarity.Text.Numeral
import Complementarity.Verification
