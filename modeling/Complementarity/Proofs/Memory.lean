import Complementarity.Proofs.Trace
import Complementarity.Solver

/-!
# The memory of a solver does not show

A solver works in a memory that it finds as the last solve has left it (`Lcp.runIn`).  What is
proved here holds for every kind of scalar and for every memory:

* **one iteration** — `State.stepIn_fst`: the buffers of the ratio test do not influence what an
  iteration comes to, although they are not reset before it;
* **the loop and the method** — `State.finish_runIn`, `Lcp.runIn_fst`: the result is that of
  `State.run` and `Lcp.run`, which know no buffers;
* **a solver** — `Solver.run_fst`, `Solver.solveInto_of_refusal_eq_none`: what a solver returns for
  an acceptable problem is the result of `Lcp.run`;
* **acceptable problems** — `Lcp.fault?_eq_none_iff`, `Lcp.refusal?_eq_none_iff`: they are those of
  a positive dimension with finite entries, if the settings allow an iteration.
-/

namespace Complementarity

variable {α : Type} [Scalar α] {n : Nat}

namespace State

/-- **One iteration.**  It comes to the same in whatever buffers the rows are compared. -/
theorem stepIn_fst (s : State α n) (b : Buffers α) : (s.stepIn b).1 = s.step := by
  rw [stepIn, step]
  dsimp only
  split
  · rfl
  · rw [Tableau.best_scanBlocking]
    cases s.tableau.blockingRow s.exchanged.2 with
    | none => rfl
    | some row => rfl

/-- **The loop.**  By induction on the budget, for all buffers at once: an iteration hands them on
with new contents. -/
theorem finish_runIn (d : Diagnostics) (budget iterations : Nat) (s : State α n) (b : Buffers α)
    (journal : Journal n) :
    (s.runIn d budget iterations b journal).finish = s.run d budget iterations journal := by
  induction budget generalizing iterations s b journal with
  | zero => rfl
  | succ budget ih =>
    rw [runIn, run, ← s.stepIn_fst b]
    cases hstep : s.stepIn b with
    | mk result b' =>
      cases result with
      | released basis => rfl
      | unblocked column => rfl
      | pivoted next => exact ih _ _ _ _

end State

/-- **The method.**  Its result does not depend on what else the memory holds beside the tableau. -/
theorem Lcp.runIn_fst (p : Lcp α n) (settings : Settings) (d : Diagnostics) (memory : Memory α n)
    (buffer : Point α n) :
    (p.runIn settings d memory buffer).1 = (p.run settings d memory.tableau buffer).1 := by
  -- the lowest row is the first thing that either run looks for
  have hlowest := (memory.tableau.withPerturbation p.q).incumbent_scanLowest
    ⟨memory.lowest, memory.ratio⟩
  rw [runIn, run, ← hlowest]
  dsimp only
  cases hbest : ((memory.tableau.withPerturbation p.q).scanLowest
      ⟨memory.lowest, memory.ratio⟩).best with
  | none =>
    rw [Scan.incumbent, hbest]
    rfl
  | some row =>
    rw [Scan.incumbent, hbest, Option.map_some, Option.filter_some, Option.filter_some]
    cases lexNeg ((memory.tableau.withPerturbation p.q).scanLowest
        ⟨memory.lowest, memory.ratio⟩).held with
    | false => rfl
    | true =>
      simp only [if_true, State.finish_runIn]
      rfl

namespace Solver

variable (s : Solver α) (p : Lcp α n)

/-- The result of a solver's run is that of the method. -/
theorem run_fst (buffer : Point α n) :
    (s.run p buffer).1 = (p.run s.settings s.diagnostics (s.workspace n) buffer).1 :=
  p.runIn_fst s.settings s.diagnostics (s.memory.fitted n) buffer

variable {s p}

/-- **What a solver returns** for an acceptable problem. -/
theorem solveInto_of_refusal_eq_none (h : p.refusal? s.settings = none) (buffer : Point α n) :
    (s.solveInto p buffer).1 =
      .ok (p.run s.settings s.diagnostics (s.workspace n) buffer).1 := by
  simp only [solveInto, h]
  exact congrArg Except.ok (s.run_fst p buffer)

end Solver

/-! ## Acceptable problems -/

/-- Every index passes the test for finite values exactly if a search for the first that does not
finds none. -/
theorem find?_not_isFinite_eq_none_iff {f : Fin n → α} :
    (List.finRange n).find? (fun r => !Scalar.isFinite (f r)) = none ↔
      ∀ r, Scalar.isFinite (f r) = true := by
  simp [List.find?_eq_none]

namespace Lcp

variable {p : Lcp α n}

theorem firstNonFinite?_eq_none_iff :
    p.firstNonFinite? = none ↔ (∀ r, Scalar.isFinite (p.q.get r) = true) ∧
      ∀ r c, Scalar.isFinite (p.m.entry r c) = true := by
  simp only [← find?_not_isFinite_eq_none_iff, firstNonFinite?]
  cases (List.finRange n).find? fun r => !Scalar.isFinite (p.q.get r) with
  | some r => simp
  | none =>
    simp only [List.findSome?_eq_none_iff, List.mem_finRange, forall_const, true_and]
    refine forall_congr' fun r => ?_
    cases (List.finRange n).find? fun c => !Scalar.isFinite (p.m.entry r c) <;> simp

/-- Nothing is wrong with the entries of a problem if there are any and they are finite. -/
theorem fault?_eq_none_iff :
    p.fault? = none ↔ 0 < n ∧ (∀ r, Scalar.isFinite (p.q.get r) = true) ∧
      ∀ r c, Scalar.isFinite (p.m.entry r c) = true := by
  rw [fault?, ← firstNonFinite?_eq_none_iff]
  by_cases hn : n = 0
  · simp [hn]
  · simp [hn, Nat.pos_of_ne_zero hn]

/-- A problem is acceptable if nothing is wrong with its entries and the settings allow an
iteration. -/
theorem refusal?_eq_none_iff {settings : Settings} :
    p.refusal? settings = none ↔ p.fault? = none ∧ settings.isUsable = true := by
  rw [refusal?, Option.or_eq_none_iff, InputError.ofSettings?]
  cases settings.isUsable <;> simp

end Lcp

/-- Settings that allow no iteration are refused if nothing is wrong with the problem. -/
theorem Solver.solveSized_of_isUsable_eq_false {s : Solver α} {p : Lcp α n}
    (hfault : p.fault? = none) (hs : s.settings.isUsable = false) :
    (s.solveSized p).1 = .error .noIterations := by
  refine congrArg Prod.fst (s.solveInto_of_refusal _ ?_)
  rw [Lcp.refusal?, hfault, Option.none_or, InputError.ofSettings?, hs, if_neg Bool.false_ne_true]

/-- What a solver returns for an acceptable problem whose shape has to be checked first. -/
theorem Solver.solve_of_fault_eq_none {s : Solver α} {p : Problem α} {lcp : Lcp α p.dim}
    (hp : p.sized = .ok lcp) (hfault : lcp.fault? = none) (hs : s.settings.isUsable = true) :
    (s.solve p).1 = .ok
      (lcp.run s.settings s.diagnostics (s.workspace p.dim) (Point.zero α p.dim)).1 := by
  rw [solve, hp]
  exact solveInto_of_refusal_eq_none (Lcp.refusal?_eq_none_iff.2 ⟨hfault, hs⟩) _

end Complementarity
