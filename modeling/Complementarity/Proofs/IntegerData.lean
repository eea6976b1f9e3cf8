import Mathlib.Algebra.Order.Field.Rat
import Complementarity.Proofs.Sizes
import Complementarity.Scalar.Instances

/-!
# Problems with integer data

A problem that is stated in integers is solved in rational numbers.

* **the integers of 64 bits** — `IsInt64`;
* **the same problem in rational numbers** — `Lcp.toRat`;
* **the size of the data** — `Lcp.height`, the largest absolute value of an entry, and at least one.
-/

namespace Complementarity

variable {n : Nat}

/-- The integer has 64 bits, with sign. -/
def IsInt64 (v : ℤ) : Prop := Binary.leastInt64 ≤ v ∧ v ≤ Binary.greatestInt64

instance : DecidablePred IsInt64 := fun v =>
  inferInstanceAs (Decidable (Binary.leastInt64 ≤ v ∧ v ≤ Binary.greatestInt64))

namespace Lcp

/-- The problem with rational numbers for its integers. -/
def toRat (p : Lcp ℤ n) : Lcp ℚ n where
  q := Vector.ofFn fun i => (p.q.get i : ℚ)
  m := p.m.map fun x : ℤ => (x : ℚ)

/-- The largest absolute value in the data, and at least one. -/
def height (p : Lcp ℤ n) : ℕ :=
  (p.q.toList ++ p.m.entries).foldl (fun largest x => max largest x.natAbs) 1

variable (p : Lcp ℤ n)

@[simp] theorem get_q_toRat (i : Fin n) : p.toRat.q.get i = p.q.get i := by
  simp [toRat]

@[simp] theorem entry_m_toRat (i j : Fin n) : p.toRat.m.entry i j = p.m.entry i j := by
  simp [toRat]

variable {p}

/-- A bound on the height is a bound on all entries. -/
theorem height_le_iff {c : ℕ} :
    p.height ≤ c ↔ 1 ≤ c ∧ (∀ i, (p.q.get i).natAbs ≤ c) ∧ ∀ i j, (p.m.entry i j).natAbs ≤ c := by
  rw [height, foldl_max_le_iff, List.forall_mem_append, forall_mem_toList_iff,
    Dense.forall_mem_entries_iff]

theorem height_le_of_forall {c : ℕ} (hc : 1 ≤ c) (hq : ∀ i, (p.q.get i).natAbs ≤ c)
    (hm : ∀ i j, (p.m.entry i j).natAbs ≤ c) : p.height ≤ c :=
  height_le_iff.2 ⟨hc, hq, hm⟩

variable (p)

theorem one_le_height : 1 ≤ p.height := (height_le_iff.1 le_rfl).1

theorem natAbs_get_q_le (i : Fin n) : (p.q.get i).natAbs ≤ p.height :=
  (height_le_iff.1 le_rfl).2.1 i

theorem natAbs_entry_le (i j : Fin n) : (p.m.entry i j).natAbs ≤ p.height :=
  (height_le_iff.1 le_rfl).2.2 i j

end Lcp

end Complementarity
