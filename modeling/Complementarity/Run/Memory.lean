import Complementarity.Run.Basic
import Complementarity.Run.Scan

/-!
# Runs in the memory of a solver

`Lcp.run` says what the method does.  A solver carries it out in a memory that it keeps from solve
to solve: the tableau, the bookkeeping, and three polynomials through which rows are compared.  Each
of them still holds what the last solve has left there, and only a part is written anew:

* a solve of another dimension cuts everything to size, and only the tableau starts from zeros;
* the coefficients of the tableau and the bookkeeping are written only if the method pivots;
* the least ratio is not reset between two ratio tests.

`Lcp.runIn` is the method in a memory, `State.runIn` its loop and `State.stepIn` one iteration.
-/

namespace Complementarity

variable {α : Type} {n : Nat}

/-! ## The memory -/

/-- What a solver keeps from solve to solve. -/
structure Memory (α : Type) (n : Nat) where
  tableau : Tableau α n
  basis : Basis n
  /-- The polynomial of the lowest row so far. -/
  lowest : List α
  /-- The polynomial of the row that is looked at. -/
  ratio : List α
  /-- The least ratio so far. -/
  leastRatio : List α

/-- A place with the numbers of another dimension, those cut down that this one does not have. -/
def Place.fitted {m : Nat} (place : Place m) (n : Nat) : Place n :=
  let cut (i : Fin (m + 1)) : Fin (n + 1) := ⟨min i.val n, by omega⟩
  match place with
  | ⟨.w i, partner⟩ => ⟨.w (cut i), cut partner⟩
  | ⟨.z i, partner⟩ => ⟨.z (cut i), cut partner⟩

/-- As many places as a dimension needs: the first ones are kept, and missing ones are made up. -/
def fittedPlaces {m : Nat} (places : Vector (Place m) (m + 1)) (n : Nat) :
    Vector (Place n) (n + 1) :=
  let blank : Place m := ⟨.w ⟨0, by omega⟩, ⟨0, by omega⟩⟩
  Vector.ofFn fun i => (places.toList.getD i.val blank).fitted n

/-- The bookkeeping cut to size. -/
def Basis.fitted {m : Nat} (b : Basis m) (n : Nat) : Basis n :=
  ⟨fittedPlaces b.basic n, fittedPlaces b.nonbasic n⟩

section Fitted

variable [Scalar α]

/-- A tableau of another dimension gives way to one of zeros. -/
def Tableau.fitted {m : Nat} (t : Tableau α m) (n : Nat) : Tableau α n :=
  if h : m = n then h ▸ t else .zero α n

/-- A polynomial cut to size. -/
def fittedPolynomial (p : List α) (n : Nat) : List α :=
  (p ++ List.replicate (n + 1) 0).take (n + 1)

namespace Memory

/-- The memory before the first solve. -/
def blank (α : Type) [Scalar α] : Memory α 0 where
  tableau := .zero α 0
  basis := .initial 0
  lowest := []
  ratio := []
  leastRatio := []

/-- The memory cut to the size of a dimension. -/
def fitted {m : Nat} (memory : Memory α m) (n : Nat) : Memory α n where
  tableau := memory.tableau.fitted n
  basis := memory.basis.fitted n
  lowest := fittedPolynomial memory.lowest n
  ratio := fittedPolynomial memory.ratio n
  leastRatio := fittedPolynomial memory.leastRatio n

end Memory

end Fitted

/-! ## The method in a memory -/

variable [Scalar α]

namespace State

/-- One iteration, with the buffers of the ratio test. -/
def stepIn (s : State α n) (b : Buffers α) : Step α n × Buffers α :=
  let (basis, driving) := s.exchanged
  if (basis.inColumn s.column).isArtificial then (.released basis, b)
  else
    let scan := s.tableau.scanBlocking driving b
    match scan.best with
    | none => (.unblocked driving, scan.toBuffers)
    | some row =>
      (.pivoted
        { tableau := s.tableau.pivot row (Tableau.coefficientColumn driving)
          basis := basis
          row := row
          column := driving }, scan.toBuffers)

/-- What a loop leaves behind: its result, the bookkeeping as it was last written, and the buffers
of the ratio tests. -/
structure Remains (α : Type) (n : Nat) where
  finish : Finish α n
  basis : Basis n
  buffers : Buffers α

/-- The loop, with the buffers of its ratio tests. -/
def runIn (d : Diagnostics) : (budget iterations : Nat) → State α n → Buffers α → Journal n →
    Remains α n
  | 0, iterations, s, b, journal =>
    ⟨⟨.outOfBudget, iterations, s.tableau, journal⟩, s.basis, b⟩
  | budget + 1, iterations, s, b, journal =>
    match s.stepIn b with
    | (.released basis, b) =>
      ⟨⟨.ofReleased s.tableau basis, iterations + 1, s.tableau, journal⟩, basis, b⟩
    | (.unblocked column, b) =>
      ⟨⟨.ray column, iterations + 1, s.tableau, journal⟩, s.exchanged.1, b⟩
    | (.pivoted next, b) =>
      runIn d budget (iterations + 1) next b
        (journal.note d (iterations + 2) ⟨next.row, next.column⟩ false next.tableau)

end State

/-- Solve a problem in a memory of its dimension, writing into a pair of vectors. -/
def Lcp.runIn (p : Lcp α n) (settings : Settings) (diagnostics : Diagnostics)
    (memory : Memory α n) (buffer : Point α n) : Outcome α n × Memory α n :=
  let d := diagnostics.enableIf settings.verbose
  let perturbed := memory.tableau.withPerturbation p.q
  let scan := perturbed.scanLowest ⟨memory.lowest, memory.ratio⟩
  let scanned : Memory α n :=
    { memory with tableau := perturbed, lowest := scan.held, ratio := scan.trial }
  match scan.best.filter fun _ => lexNeg scan.held with
  | none => (p.trivialOutcome settings.recordSizes, scanned)
  | some row =>
    let first := State.start (perturbed.withMatrix p.m) row
    let journal := (Journal.blank settings.recordSizes).note d 1 ⟨first.row, first.column⟩ true
      first.tableau
    let remains := first.runIn d (settings.budget n) 0 ⟨memory.leastRatio, scan.trial⟩ journal
    (outcomeOfFinish d (settings.budget n) remains.finish buffer,
      { scanned with
        tableau := remains.finish.tableau
        basis := remains.basis
        ratio := remains.buffers.trial
        leastRatio := remains.buffers.held })

end Complementarity
