import Complementarity.Benchmark.Family
import Complementarity.Problem
import Complementarity.Random.Uniform

/-!
# Generated problems

Every family consists of problems with integer data.  Their entries are drawn from a source of
random words: matrices column by column, then what else the matrix needs, and the vector last.

A Gram matrix `B Bᵀ` is symmetric and positive semidefinite whatever `B` is, and adding a positive
multiple of the identity makes it definite, so the members of the first two families belong to
their class for every source.
-/

namespace Complementarity.Benchmark

open Complementarity.Random

/-- A problem with integer data and a label. -/
structure Generated where
  label : String
  dim : Nat
  data : Lcp Int dim

/-- The matrix of the inner products of the rows. -/
def gram {n k : Nat} (b : Dense Int n k) : Dense Int n n :=
  Dense.ofFn fun i j =>
    (List.finRange k).foldl (fun sum l => sum + b.entry i l * b.entry j l) 0

/-- The matrix with `d` added to every entry of the diagonal. -/
def shifted {n : Nat} (m : Dense Int n n) (d : Int) : Dense Int n n :=
  Dense.ofFn fun i j => m.entry i j + if i = j then d else 0

/-- The lower triangular matrix with ones on the diagonal and twos below it. -/
def murtyMatrix (n : Nat) : Dense Int n n :=
  Dense.ofFn fun i j => if j < i then 2 else if i = j then 1 else 0

/-- The member of its family of dimension `n`; `q` consists of minus ones. -/
def murty (n : Nat) : Generated where
  label := s!"murty{n}"
  dim := n
  data := ⟨Vector.replicate n (-1), murtyMatrix n⟩

/-! ## Random problems -/

variable {σ : Type} [Source σ]

/-- A vector with entries from `low` to `high`. -/
def randomVector (n : Nat) (low high : Int) : StateM σ (Vector Int n) :=
  Vector.ofFnM fun _ => between low high

/-- A matrix with entries from `low` to `high`, drawn column by column. -/
def randomMatrix (rows cols : Nat) (low high : Int) : StateM σ (Dense Int rows cols) := do
  let columns ← Vector.ofFnM fun (_ : Fin cols) => randomVector rows low high
  return Dense.ofFn fun i j => (columns.get j).get i

/-- The vector of a random problem. -/
def randomConstants (n : Nat) : StateM σ (Vector Int n) := randomVector n (-10) 10

/-- A problem with a symmetric positive definite matrix. -/
def positiveDefinite (n : Nat) : StateM σ Generated := do
  let a ← randomMatrix n n (-4) 4
  let d ← between 1 3
  let q ← randomConstants n
  return ⟨s!"pd{n}", n, ⟨q, shifted (gram a) d⟩⟩

/-- A problem with a symmetric positive semidefinite matrix of some rank. -/
def positiveSemidefinite (n : Nat) : StateM σ Generated := do
  let rank := (← between 1 (max n 1 : Nat)).toNat
  let b ← randomMatrix n rank (-3) 3
  let q ← randomConstants n
  return ⟨s!"psd{n}r{rank}", n, ⟨q, gram b⟩⟩

/-- A problem whose matrix has no structure. -/
def random (n : Nat) : StateM σ Generated := do
  let m ← randomMatrix n n (-5) 5
  let q ← randomConstants n
  return ⟨s!"rand{n}", n, ⟨q, m⟩⟩

/-- A problem with a number added to its label. -/
def Generated.numbered (g : Generated) (number : Nat) : Generated :=
  { g with label := s!"{g.label}-{number}" }

/-- `count` problems, numbered from zero. -/
def copies (count : Nat) (draw : StateM σ Generated) : StateM σ (List Generated) :=
  (List.range count).mapM fun number => return (← draw).numbered number

/-- The problems of a family: `count` of a random one, and the first `dim` members of the
deterministic one. -/
def Family.instances (family : Family) (dim count : Nat) : StateM σ (List Generated) :=
  match family with
  | .positiveDefinite => copies count (Benchmark.positiveDefinite dim)
  | .positiveSemidefinite => copies count (Benchmark.positiveSemidefinite dim)
  | .murty => return (List.range dim).map fun k => Benchmark.murty (k + 1)
  | .random => copies count (Benchmark.random dim)

/-- The problems of all families that are chosen, in their order. -/
def FamilySelection.instances (choice : FamilySelection) (dim count : Nat) :
    StateM σ (List Generated) :=
  return (← choice.families.mapM fun family => family.instances dim count).flatten

end Complementarity.Benchmark
