import Complementarity.Problem

/-!
# Quality of a candidate solution

How far a pair of vectors is from solving a problem: the largest residual of a row, the inner
product of the two vectors, and their least entries.  `Metrics.isWithin` compares these four
numbers with a tolerance; over the rationals and with tolerance zero it decides whether the pair
is a solution.
-/

namespace Complementarity

/-- Four measures of a candidate. -/
structure Metrics (α : Type) where
  /-- The largest absolute value of a row of `w - q - M z`. -/
  residual : α
  /-- The inner product `wᵀ z`. -/
  complementarity : α
  minW : α
  minZ : α
  deriving DecidableEq

/-- Whether all measures are within a tolerance. -/
def Metrics.isWithin {α : Type} [Scalar α] (m : Metrics α) (tolerance : α) : Bool :=
  let lowest := -tolerance
  decide (m.residual ≤ tolerance) && decide (Scalar.abs m.complementarity ≤ tolerance) &&
    decide (lowest ≤ m.minW) && decide (lowest ≤ m.minZ)

namespace Lcp

variable {α : Type} [Scalar α] {n : Nat}

/-- Row `i` of `w - q - M z`; the products are subtracted one after the other. -/
def residual (p : Lcp α n) (x : Point α n) (i : Fin n) : α :=
  (List.finRange n).foldl (fun r j => r - p.m.entry i j * x.z.get j) (x.w.get i - p.q.get i)

/-- The largest absolute value of a residual. -/
def largestResidual (p : Lcp α n) (x : Point α n) : α :=
  (List.finRange n).foldl (fun largest i =>
    let r := Scalar.abs (p.residual x i)
    if largest < r then r else largest) 0

end Lcp

/-- The inner product of the two vectors, summed from the first entry on. -/
def Point.inner {α : Type} [Scalar α] {n : Nat} (x : Point α n) : α :=
  (List.finRange n).foldl (fun sum i => sum + x.w.get i * x.z.get i) 0

/-- The measures of a candidate for a problem. -/
def Lcp.metrics {α : Type} [Scalar α] {n : Nat} (p : Lcp α n) (x : Point α n) : Metrics α where
  residual := p.largestResidual x
  complementarity := x.inner
  minW := Scalar.minimum x.w.toList
  minZ := Scalar.minimum x.z.toList

/-- The measures of vectors of any length; there are none unless the shapes fit together. -/
def Problem.metrics? {α : Type} [Scalar α] (p : Problem α) (w z : Array α) :
    Option (Metrics α) :=
  if hw : w.size = p.dim then
    if hz : z.size = p.dim then
      (p.m.toDense? p.dim p.dim).map fun m =>
        Lcp.metrics ⟨p.constants, m⟩ ⟨⟨w, hw⟩, ⟨z, hz⟩⟩
    else none
  else none

end Complementarity
