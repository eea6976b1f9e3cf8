import Complementarity.Solver
import Complementarity.Tableau.InPlace

/-!
# The method on plain numbers

`Lcp.run` cannot go out of range: its rows, columns and places are bounded by their types, and its
vectors have the length that they should have.  The method below has none of this.  Rows, columns
and places are numbers, records and vectors are arrays of any size, and each access is checked where
it is made, as is each division and each remainder; what fails is a `Fault`.

`Guarded.Solver.solve` is a whole solve: validation, sizing of the workspace that the last solve has
left behind, the scan for the first row, and the loop of pivots, each a loop over cells.
-/

namespace Complementarity.Guarded

variable {α β : Type} {n : Nat}

/-! ## Checked accesses -/

/-- Why a step cannot be carried out. -/
inductive Fault where
  /-- An access to a matrix is out of range, or a divisor has no reciprocal. -/
  | tableau (fault : TableauFault)
  /-- There is no such record. -/
  | placeOutOfRange (place : Nat)
  /-- There is no such coordinate of a solution. -/
  | coordinateOutOfRange (coordinate : Nat)
  | wrongLength (expected actual : Nat)
  /-- A pivot number is to be divided by a stride of zero. -/
  | zeroStride
  deriving DecidableEq, Repr

/-- An operation on a tableau as a step of the method. -/
def onTableau (x : Except TableauFault β) : Except Fault β := x.mapError .tableau

/-- Read the member of an array at a number. -/
def readAt (xs : Array β) (i : Nat) (fault : Fault) : Except Fault β :=
  xs[i]?.elim (.error fault) .ok

/-- Write the member of an array at a number. -/
def writeAt (xs : Array β) (i : Nat) (x : β) (fault : Fault) : Except Fault (Array β) :=
  if i < xs.size then .ok (xs.setIfInBounds i x) else .error fault

/-! ## Vectors of a solution -/

/-- The coordinate that a variable has in a solution.  The number `n` is that of the artificial
pair, which has none. -/
inductive Slot where
  | w (i : Nat)
  | z (i : Nat)
  deriving DecidableEq, Repr

/-- The number of a slot. -/
def Slot.index : Slot → Nat
  | w i => i
  | z i => i

/-- The two vectors into which a solution is written. -/
structure Output (α : Type) where
  w : Array α
  z : Array α
  deriving DecidableEq

namespace Output

/-- Write a coordinate. -/
def put (out : Output α) (slot : Slot) (x : α) : Except Fault (Output α) :=
  match slot with
  | .w i => do return { out with w := ← writeAt out.w i x (.coordinateOutOfRange i) }
  | .z i => do return { out with z := ← writeAt out.z i x (.coordinateOutOfRange i) }

/-- Vectors of zeros. -/
def zero (α : Type) [Zero α] (n : Nat) : Output α := ⟨Array.replicate n 0, Array.replicate n 0⟩

/-- Fill both vectors with zeros. -/
def cleared [Zero α] (out : Output α) : Output α := ⟨out.w.map fun _ => 0, out.z.map fun _ => 0⟩

/-- Copy `q` into `w`, which must be as long, and fill `z` with zeros. -/
def copied [Zero α] (out : Output α) (q : Array α) : Except Fault (Output α) :=
  if q.size = out.w.size then .ok ⟨q, out.z.map fun _ => 0⟩
  else .error (.wrongLength out.w.size q.size)

end Output

/-! ## Records -/

/-- A variable, and the place of its partner in the opposite array. -/
structure Record where
  slot : Slot
  partner : Nat
  deriving DecidableEq, Repr

/-- The variables that are basic in the rows and nonbasic in the columns. -/
structure Records where
  basic : Array Record
  nonbasic : Array Record
  deriving DecidableEq

namespace Records

/-- As many records as a dimension needs: the first ones are kept, missing ones are made up. -/
def fitted (b : Records) (n : Nat) : Records :=
  let blank : Record := ⟨.w 0, 0⟩
  let resized (records : Array Record) : Array Record :=
    (records ++ Array.replicate (n + 1) blank).take (n + 1)
  ⟨resized b.basic, resized b.nonbasic⟩

/-- Write the records of the start. -/
def reset (b : Records) (n : Nat) : Except Fault Records :=
  (List.range (n + 1)).foldlM (fun b i => do
    let basic ← writeAt b.basic i ⟨.w i, i⟩ (.placeOutOfRange i)
    let nonbasic ← writeAt b.nonbasic i ⟨.z i, i⟩ (.placeOutOfRange i)
    return ⟨basic, nonbasic⟩) b

/-- Let the variables of a row and a column trade places, and tell the partner of the one that
leaves.  The place of that partner is returned. -/
def exchange (b : Records) (row column : Nat) : Except Fault (Records × Nat) := do
  let leaving ← readAt b.basic row (.placeOutOfRange row)
  let next := leaving.partner
  let partner ← readAt b.nonbasic next (.placeOutOfRange next)
  let informed ← writeAt b.nonbasic next { partner with partner := column } (.placeOutOfRange next)
  let entering ← readAt informed column (.placeOutOfRange column)
  let basic ← writeAt b.basic row entering (.placeOutOfRange row)
  let nonbasic ← writeAt informed column leaving (.placeOutOfRange column)
  return (⟨basic, nonbasic⟩, next)

/-- Read a solution off a tableau. -/
def readOff [Zero α] (b : Records) (t : Tableau α n) (out : Output α) :
    Except Fault (Output α) := do
  let proper := b.nonbasic.toList.filter fun record => record.slot.index < n
  let withBasic ← (List.range n).foldlM (fun out r => do
    let record ← readAt b.basic r (.placeOutOfRange r)
    out.put record.slot (← onTableau (Tableau.Checked.constant t r))) out
  proper.foldlM (fun out record => out.put record.slot 0) withBasic

end Records

variable [Scalar α]

/-! ## Choosing a row -/

/-- Look at one more candidate, whose polynomial is written into the second buffer. -/
def visit (fill : List α → Except TableauFault (List α)) (s : Scan Nat α) (r : Nat) :
    Except Fault (Scan Nat α) := do
  let trial ← onTableau (fill s.trial)
  return s.visit (fun _ => trial) r

/-- Look for the row with the least polynomial, starting from the first one. -/
def scanLowest (t : Tableau α n) (b : Buffers α) : Except Fault (Scan Nat α) := do
  let held ← onTableau (Tableau.InPlace.fillPolynomial t 0 id b.held)
  (List.range n).tail.foldlM
    (fun s r => visit (Tableau.InPlace.fillPolynomial t r id) s r) (.seeded 0 held b)

/-- Look at a row in the ratio test of column `d`. -/
def testRatio (t : Tableau α n) (d : Nat) (s : Scan Nat α) (r : Nat) :
    Except Fault (Scan Nat α) := do
  let coefficient ← onTableau (Tableau.Checked.entry t r d)
  if coefficient < 0 then
    let inverse ← onTableau (Tableau.InPlace.reciprocal t r d)
    let factor := -inverse
    visit (Tableau.InPlace.fillPolynomial t r fun x => factor * x) s r
  else return s

/-- Look for the row that blocks an increase of the variable of column `d` first. -/
def scanBlocking (t : Tableau α n) (d : Nat) (b : Buffers α) : Except Fault (Scan Nat α) :=
  (List.range n).foldlM (testRatio t d) (.blank b)

/-- The first row whose constant is not finite. -/
def overflowingRow (t : Tableau α n) : Except Fault (Option Nat) :=
  (List.range n).findM? fun r => do
    return !Scalar.isFinite (← onTableau (Tableau.Checked.constant t r))

/-! ## Notes -/

/-- What is noted down during a run, the latest report first. -/
structure Notes where
  pivots : Nat
  reports : List Event
  /-- Present exactly if sizes are recorded. -/
  sizes : Option SizeRecord

namespace Notes

/-- The notes before the first pivot. -/
def blank (recordsSizes : Bool) : Notes where
  pivots := 0
  reports := []
  sizes := if recordsSizes then some {} else none

/-- Look at some entries, if sizes are recorded. -/
def measure (notes : Notes) (entries : List α) : Notes :=
  { notes with sizes := notes.sizes.map fun s => s.observe entries }

/-- Note a pivot that has led to a tableau. -/
def pivot (notes : Notes) (d : Diagnostics) (row column : Nat) (artificial : Bool)
    (t : Tableau α n) : Except Fault Notes := do
  let number := notes.pivots + 1
  let measured := notes.measure t.entries
  let traced ← (d.traces? number).elim (.error .zeroStride) .ok
  let report := Event.pivoted number row column artificial
  return { measured with
    pivots := number
    reports := if traced then report :: notes.reports else notes.reports }

/-- Note how the run ended. -/
def close (notes : Notes) (d : Diagnostics) (event : Event) : Notes :=
  if d.enabled then { notes with reports := event :: notes.reports } else notes

end Notes

/-! ## The loop -/

/-- Where a run stands after a pivot. -/
structure State (α : Type) (n : Nat) where
  tableau : Tableau α n
  records : Records
  row : Nat
  column : Nat
  /-- The buffers of the ratio tests. -/
  buffers : Buffers α
  notes : Notes

/-- What an iteration comes to. -/
inductive Step (α : Type) (n : Nat) where
  /-- The artificial variable is nonbasic again. -/
  | released (records : Records)
  /-- No row blocks the variable of this column. -/
  | unblocked (records : Records) (column : Nat) (buffers : Buffers α)
  /-- The state after one more pivot. -/
  | pivoted (next : State α n)

/-- How a run ended, and what it leaves behind. -/
structure Ended (α : Type) (n : Nat) where
  status : Status
  output : Output α
  iterations : Nat
  notes : Notes
  tableau : Tableau α n
  records : Records
  buffers : Buffers α

namespace State

/-- One iteration. -/
def step (d : Diagnostics) (s : State α n) : Except Fault (Step α n) := do
  let (records, driving) ← s.records.exchange s.row s.column
  let left ← readAt records.nonbasic s.column (.placeOutOfRange s.column)
  if left.slot.index = n then return .released records
  let scan ← scanBlocking s.tableau driving s.buffers
  match scan.best with
  | none => return .unblocked records driving scan.toBuffers
  | some row =>
    let tableau ← onTableau (Tableau.InPlace.pivot s.tableau row driving)
    let notes ← s.notes.pivot d row driving false tableau
    return .pivoted ⟨tableau, records, row, driving, scan.toBuffers, notes⟩

/-- The end of a run that fails in this state, with the report on it. -/
def fail (s : State α n) (d : Diagnostics) (status : Status) (iterations : Nat) (records : Records)
    (out : Output α) (event : Event) : Ended α n :=
  ⟨status, out.cleared, iterations, s.notes.close d event, s.tableau, records, s.buffers⟩

/-- The end of a run whose artificial variable has left. -/
def release (s : State α n) (d : Diagnostics) (iterations : Nat) (records : Records)
    (out : Output α) : Except Fault (Ended α n) := do
  match ← overflowingRow s.tableau with
  | some row =>
    return s.fail d .failedToConverge iterations records out (.overflowed row n s.notes.pivots)
  | none =>
    let solution ← records.readOff s.tableau out
    return ⟨.nontrivialSolution, solution, iterations, s.notes, s.tableau, records, s.buffers⟩

/-- Iterate from a state, at most `budget` times after the `iterations` iterations made so far, of
`limit` in all. -/
def run (d : Diagnostics) (limit : Nat) :
    (budget iterations : Nat) → State α n → Output α → Except Fault (Ended α n)
  | 0, iterations, s, out =>
    .ok (s.fail d .failedToConverge iterations s.records out (.outOfBudget limit n s.notes.pivots))
  | budget + 1, iterations, s, out => do
    match ← s.step d with
    | .released records => s.release d (iterations + 1) records out
    | .unblocked records column buffers =>
      let last : State α n := { s with buffers := buffers }
      return last.fail d .noSolution (iterations + 1) records out
        (.unblocked column s.notes.pivots n)
    | .pivoted next => run d limit budget (iterations + 1) next out

end State

/-! ## The method -/

/-- What is kept from solve to solve. -/
structure Workspace (α : Type) (n : Nat) where
  tableau : Tableau α n
  records : Records
  /-- The polynomial of the lowest row so far. -/
  lowest : List α
  /-- The polynomial of the row that is looked at. -/
  ratio : List α
  /-- The least ratio so far. -/
  leastRatio : List α

/-- The result of a solve. -/
structure Result (α : Type) where
  status : Status
  output : Output α
  cost : Cost
  log : List Event

namespace Workspace

/-- The workspace before the first solve. -/
def blank (α : Type) [Scalar α] : Workspace α 0 := ⟨.zero α 0, ⟨#[], #[]⟩, [], [], []⟩

/-- The workspace cut to the size of a dimension. -/
def fitted {m : Nat} (workspace : Workspace α m) (n : Nat) : Workspace α n where
  tableau := workspace.tableau.fitted n
  records := workspace.records.fitted n
  lowest := fittedPolynomial workspace.lowest n
  ratio := fittedPolynomial workspace.ratio n
  leastRatio := fittedPolynomial workspace.leastRatio n

end Workspace

/-- The result of a run that has ended. -/
def Ended.result (e : Ended α n) : Result α where
  status := e.status
  output := e.output
  cost := ⟨e.iterations, e.notes.pivots, e.notes.sizes.map SizeRecord.maxBits⟩
  log := e.notes.reports.reverse

/-- Pivot from a row of a loaded perturbation until the run ends. -/
def pivotFrom (perturbed : Tableau α n) (m : Grid α) (records : Records) (buffers : Buffers α)
    (settings : Settings) (d : Diagnostics) (row : Nat) (out : Output α) :
    Except Fault (Ended α n) := do
  let loaded ← onTableau (Tableau.InPlace.loadMatrix perturbed m)
  let records ← records.reset n
  let tableau ← onTableau (Tableau.InPlace.enterArtificial loaded row)
  let notes ← (Notes.blank settings.recordSizes).pivot d row n true tableau
  let first : State α n := ⟨tableau, records, row, n, buffers, notes⟩
  first.run d (settings.budget n) (settings.budget n) 0 out

/-- Solve valid data in a workspace of their dimension, writing into a pair of vectors. -/
def run (workspace : Workspace α n) (q : Array α) (m : Grid α) (settings : Settings)
    (diagnostics : Diagnostics) (out : Output α) : Except Fault (Result α × Workspace α n) := do
  let d := diagnostics.enableIf settings.verbose
  let perturbed ← onTableau (Tableau.InPlace.loadPerturbation workspace.tableau q)
  let scan ← scanLowest perturbed ⟨workspace.lowest, workspace.ratio⟩
  let scanned : Workspace α n :=
    { workspace with tableau := perturbed, lowest := scan.held, ratio := scan.trial }
  match scan.best.filter fun _ => lexNeg scan.held with
  | none =>
    let solution ← out.copied q
    let sizes := ((Notes.blank settings.recordSizes).measure q.toList).sizes
    let cost : Cost := { largestBits := sizes.map SizeRecord.maxBits }
    return (⟨.trivialSolution, solution, cost, []⟩, scanned)
  | some row =>
    let ended ← pivotFrom perturbed m workspace.records ⟨workspace.leastRatio, scan.trial⟩ settings
      d row out
    return (ended.result,
      { scanned with
        tableau := ended.tableau
        records := ended.records
        ratio := ended.buffers.trial
        leastRatio := ended.buffers.held })

/-- What is wrong with the data of a problem. -/
def validate (p : Problem α) : Except Fault (Option InputError) := do
  let n := p.q.size
  if n = 0 then return some .emptyProblem
  if p.m.rows ≠ n then return some (.dimensionMismatch .rows n p.m.rows)
  if p.m.cols ≠ n then return some (.dimensionMismatch .columns n p.m.cols)
  match p.q.findIdx? fun x => !Scalar.isFinite x with
  | some row => return some (.nonFiniteVector row)
  | none =>
    (List.range n).findSomeM? fun r => (List.range n).findSomeM? fun c => do
      let x ← onTableau (Tableau.InPlace.entryOf p.m r c)
      return if Scalar.isFinite x then none else some (.nonFiniteMatrix r c)

/-! ## Solvers -/

/-- Settings, diagnostics and a workspace for reuse. -/
structure Solver (α : Type) where
  settings : Settings
  diagnostics : Diagnostics
  /-- The dimension of the last solve. -/
  dim : Nat
  workspace : Workspace α dim

namespace Solver

/-- A solver with the given settings, made in an environment. -/
def withSettings (α : Type) [Scalar α] (env : Environment) (settings : Settings) : Solver α where
  settings := settings
  diagnostics := .ofEnvironment env
  dim := 0
  workspace := .blank α

/-- Solve a problem. -/
def solve (s : Solver α) (p : Problem α) :
    Except Fault (Except InputError (Result α) × Solver α) := do
  match (← validate p).or (InputError.ofSettings? s.settings) with
  | some error => return (.error error, s)
  | none =>
    let n := p.q.size
    let (result, workspace) ←
      run (s.workspace.fitted n) p.q p.m s.settings s.diagnostics (.zero α n)
    return (.ok result, { s with dim := n, workspace := workspace })

/-- The solver after a request. -/
def perform (s : Solver α) : Complementarity.Solver.Request α → Except Fault (Solver α)
  | .solve p => do return (← s.solve p).2
  | .setSettings settings => .ok { s with settings := settings }
  | .duplicate => .ok s

/-- The solver after a list of requests. -/
def performAll (s : Solver α) (requests : List (Complementarity.Solver.Request α)) :
    Except Fault (Solver α) :=
  requests.foldlM perform s

end Solver

end Complementarity.Guarded
