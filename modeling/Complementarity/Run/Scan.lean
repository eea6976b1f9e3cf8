import Complementarity.Tableau.Basic

/-!
# Scans through two buffers

A row is chosen by a scan that compares one polynomial for each candidate.  The scan works in two
buffers: `held` has the polynomial of the incumbent, and the polynomial of every further candidate
is written into `trial`.  A better candidate becomes the incumbent by an exchange of the buffers, so
that nothing is copied.  As long as there is no incumbent, the buffers hold what an earlier scan has
left there.

`incumbent_visit` says that the buffers carry what `lexKeep` carries, whatever they held before.
-/

namespace Complementarity

/-- The two buffers of a scan. -/
structure Buffers (α : Type) where
  held : List α
  trial : List α

/-- Where a scan stands: its incumbent, if it has one, and its buffers. -/
structure Scan (ι α : Type) extends Buffers α where
  best : Option ι

namespace Scan

variable {ι α : Type}

/-- A scan that has no incumbent yet. -/
def blank (b : Buffers α) : Scan ι α := ⟨b, none⟩

/-- A scan whose incumbent has been written into the first buffer. -/
def seeded (i : ι) (key : List α) (b : Buffers α) : Scan ι α := ⟨{ b with held := key }, some i⟩

/-- The incumbent with its polynomial. -/
def incumbent (s : Scan ι α) : Option (ι × List α) := s.best.map fun i => (i, s.held)

theorem map_fst_incumbent (s : Scan ι α) : s.incumbent.map Prod.fst = s.best := by
  rw [incumbent, Option.map_map]
  exact Option.map_id_apply

variable [Scalar α]

/-- Look at one more candidate. -/
def visit (key : ι → List α) (s : Scan ι α) (i : ι) : Scan ι α :=
  let trial := key i
  if s.best.isNone || lexLt trial s.held then ⟨⟨trial, s.held⟩, some i⟩
  else ⟨⟨s.held, trial⟩, s.best⟩

/-- One candidate: the incumbent is kept or replaced as by `lexKeep`. -/
theorem incumbent_visit (key : ι → List α) (s : Scan ι α) (i : ι) :
    (s.visit key i).incumbent = lexKeep key s.incumbent i := by
  obtain ⟨⟨held, trial⟩, best⟩ := s
  cases best with
  | none => rfl
  | some j =>
    cases hlt : lexLt (key i) held with
    | true => simp [visit, incumbent, lexKeep, hlt]
    | false => simp [visit, incumbent, lexKeep, hlt]

/-- All candidates. -/
theorem incumbent_foldl_visit (key : ι → List α) (candidates : List ι) (s : Scan ι α) :
    (candidates.foldl (visit key) s).incumbent = candidates.foldl (lexKeep key) s.incumbent := by
  induction candidates generalizing s with
  | nil => rfl
  | cons i rest ih => rw [List.foldl_cons, List.foldl_cons, ih, incumbent_visit]

end Scan

namespace Tableau

variable {α : Type} [Scalar α] {n : Nat}

/-- Look for the row with the least polynomial.  The polynomial of the first row is written into the
first buffer at once. -/
def scanLowest (t : Tableau α n) (b : Buffers α) : Scan (Fin n) α :=
  match List.finRange n with
  | [] => .blank b
  | first :: rest => rest.foldl (Scan.visit t.polynomial) (.seeded first (t.polynomial first) b)

/-- Look for the row that blocks an increase of the variable of column `d` first. -/
def scanBlocking (t : Tableau α n) (d : Fin (n + 1)) (b : Buffers α) : Scan (Fin n) α :=
  ((List.finRange n).filter fun r => decide (t.coefficient r d < 0)).foldl
    (Scan.visit (t.ratio d)) (.blank b)

/-- The lowest row does not depend on the buffers. -/
theorem incumbent_scanLowest (t : Tableau α n) (b : Buffers α) :
    (t.scanLowest b).incumbent = t.lowestRow := by
  rw [scanLowest, lowestRow, lexLeast]
  cases List.finRange n with
  | nil => rfl
  | cons first rest => exact Scan.incumbent_foldl_visit _ _ _

/-- The blocking row does not depend on the buffers. -/
theorem best_scanBlocking (t : Tableau α n) (d : Fin (n + 1)) (b : Buffers α) :
    (t.scanBlocking d b).best = t.blockingRow d := by
  rw [← Scan.map_fst_incumbent]
  exact congrArg (Option.map Prod.fst) (Scan.incumbent_foldl_visit _ _ _)

end Tableau

end Complementarity
