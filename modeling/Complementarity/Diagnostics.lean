import Complementarity.Environment
import Complementarity.Scalar.Basic

/-!
# Diagnostics

Two observers of a solve that take no part in it: a trace of its pivots, thinned out to every
`every`-th one, and the size of the largest entry seen.
-/

namespace Complementarity

/-- Whether pivots are traced, and at which stride. -/
structure Diagnostics where
  enabled : Bool := false
  every : Nat := 1
  deriving DecidableEq, Repr

namespace Diagnostics

/-- The diagnostics that the environment asks for. -/
def ofEnvironment (env : Environment) : Diagnostics where
  enabled := env.diagnostics.any Environment.isOn
  every := (env.diagnosticsEvery.bind Environment.positive?).getD 1

/-- A verbose solve is traced in any case. -/
def enableIf (d : Diagnostics) (verbose : Bool) : Diagnostics :=
  { d with enabled := d.enabled || verbose }

/-- Whether the pivot of this number is traced. -/
def traces (d : Diagnostics) (number : Nat) : Bool := d.enabled && number % d.every == 0

/-- Whether the pivot of this number is traced; undefined for an enabled trace of stride zero. -/
def traces? (d : Diagnostics) (number : Nat) : Option Bool :=
  if d.enabled && d.every == 0 then none else some (d.traces number)

/-- The environment never asks for a stride of zero. -/
theorem ofEnvironment_every_pos (env : Environment) : 0 < (ofEnvironment env).every := by
  unfold ofEnvironment
  cases h : env.diagnosticsEvery.bind Environment.positive? with
  | none => simp
  | some k =>
    obtain ⟨value, -, hk⟩ := Option.bind_eq_some_iff.1 h
    simpa [Environment.positive?, Option.filter_eq_some_iff] using
      (Option.filter_eq_some_iff.1 hk).2

end Diagnostics

/-- The size in bits of the largest entry seen. -/
structure SizeRecord where
  maxBits : Nat := 0
  deriving DecidableEq, Repr

/-- Look at some more entries. -/
def SizeRecord.observe {α : Type} [Scalar α] (s : SizeRecord) (entries : List α) : SizeRecord :=
  ⟨entries.foldl (fun largest x => max largest (Scalar.bits x)) s.maxBits⟩

end Complementarity
