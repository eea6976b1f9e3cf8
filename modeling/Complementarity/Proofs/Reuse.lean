import Complementarity.Proofs.Solution

/-!
# Solvers that are used again

A solver keeps its memory from solve to solve and clears hardly anything in it.  What is proved
here holds for every kind of scalar:

* **the result of a run** — `Lcp.run_fst_eq`: it depends neither on the tableau in which the run
  works nor on the vectors into which it writes, since reading off a solution sets every coordinate;
* **requests** — `Solver.perform_eq`, `Solver.performAll_eq`: they keep the diagnostics, and of the
  settings those that were chosen last remain;
* **history does not matter** — `Solver.solve_performAll_fst`: after any requests a solver answers
  as a fresh one does.
-/

namespace Complementarity

variable {α : Type} [Scalar α] {n : Nat}

/-! ## The result of a run -/

/-- A solution that is read off does not depend on what the vectors held before. -/
theorem Basis.Arranged.readOff_eq {b : Basis n} {left : Fin (n + 1)} (hb : b.Arranged left)
    (t : Tableau α n) (x y : Point α n) : b.readOff t x = b.readOff t y := by
  have hw : (b.readOff t x).w = (b.readOff t y).w :=
    vector_ext fun i => (hb.w_readOff t x i).trans (hb.w_readOff t y i).symm
  have hz : (b.readOff t x).z = (b.readOff t y).z :=
    vector_ext fun i => (hb.z_readOff t x i).trans (hb.z_readOff t y i).symm
  calc b.readOff t x = ⟨(b.readOff t x).w, (b.readOff t x).z⟩ := rfl
    _ = ⟨(b.readOff t y).w, (b.readOff t y).z⟩ := by rw [hw, hz]

/-- The point that goes with the ending of a state does not depend on the vectors either. -/
theorem State.Bookkept.point_ending_eq {s : State α n} (h : s.Bookkept) (t : Tableau α n)
    (x y : Point α n) : s.ending.point t x = s.ending.point t y := by
  rw [State.ending]
  cases hstep : s.step with
  | released basis =>
    obtain ⟨-, rfl⟩ := State.step_eq_released_iff.1 hstep
    dsimp only
    rw [Ending.ofReleased]
    cases s.tableau.overflowingRow with
    | none => exact h.arranged.readOff_eq t x y
    | some row => rfl
  | unblocked column => rfl
  | pivoted next => rfl

/-- **The result of a run** depends on the problem, the settings and the diagnostics alone. -/
theorem Lcp.run_fst_eq (p : Lcp α n) (settings : Settings) (d : Diagnostics)
    (workspace workspace' : Tableau α n) (buffer buffer' : Point α n) :
    (p.run settings d workspace buffer).1 = (p.run settings d workspace' buffer').1 := by
  cases hstart : p.start? with
  | none =>
    rw [run_of_start_eq_none p settings d workspace buffer hstart,
      run_of_start_eq_none p settings d workspace' buffer' hstart]
  | some s =>
    have hfinal := p.bookkept_of_mem_trace hstart (s.final_mem_trace (settings.budget n))
    have hpoint : (p.run settings d workspace buffer).1.point =
        (p.run settings d workspace' buffer').1.point := by
      rw [point_run hstart, point_run hstart, hfinal.point_ending_eq _ buffer buffer']
    rw [run_of_start_eq_some p settings d workspace buffer hstart,
      run_of_start_eq_some p settings d workspace' buffer' hstart] at hpoint ⊢
    exact congrArg (fun x : Point α n => { outcomeOfFinish _ _ _ buffer' with point := x }) hpoint

/-! ## Histories -/

namespace Solver

/-- What a solver answers depends on its settings and its diagnostics alone. -/
theorem solveSized_fst_congr {s s' : Solver α} (hsettings : s.settings = s'.settings)
    (hdiagnostics : s.diagnostics = s'.diagnostics) (p : Lcp α n) :
    (s.solveSized p).1 = (s'.solveSized p).1 := by
  cases hrefusal : p.refusal? s.settings with
  | some e =>
    rw [solveSized, solveSized, s.solveInto_of_refusal _ hrefusal,
      s'.solveInto_of_refusal _ (hsettings ▸ hrefusal)]
  | none =>
    rw [solveSized, solveSized, solveInto_of_refusal_eq_none hrefusal,
      solveInto_of_refusal_eq_none (hsettings ▸ hrefusal), ← hsettings, ← hdiagnostics]
    exact congrArg Except.ok (p.run_fst_eq _ _ _ _ _ _)

/-- The same goes for problems whose shape has to be checked first. -/
theorem solve_fst_congr {s s' : Solver α} (hsettings : s.settings = s'.settings)
    (hdiagnostics : s.diagnostics = s'.diagnostics) (p : Problem α) :
    (s.solve p).1 = (s'.solve p).1 := by
  cases hsized : p.sized with
  | error e => rw [s.solve_of_sized_error hsized, s'.solve_of_sized_error hsized]
  | ok sized =>
    rw [solve, solve, hsized]
    exact solveSized_fst_congr hsettings hdiagnostics sized

/-- The settings that a request leaves behind. -/
def Request.settingsAfter (settings : Settings) : Request α → Settings
  | .setSettings chosen => chosen
  | .solve _ => settings
  | .duplicate => settings

/-- A solve changes nothing but the memory. -/
theorem solveInto_snd (s : Solver α) (p : Lcp α n) (buffer : Point α n) :
    (s.solveInto p buffer).2.settings = s.settings ∧
      (s.solveInto p buffer).2.diagnostics = s.diagnostics := by
  rw [solveInto]
  cases p.refusal? s.settings with
  | some e => exact ⟨rfl, rfl⟩
  | none => exact ⟨rfl, rfl⟩

theorem solve_snd (s : Solver α) (p : Problem α) :
    (s.solve p).2.settings = s.settings ∧ (s.solve p).2.diagnostics = s.diagnostics := by
  rw [solve]
  cases p.sized with
  | error e => exact ⟨rfl, rfl⟩
  | ok sized => exact s.solveInto_snd sized _

/-- **A request** keeps the diagnostics, and the settings unless it chooses others. -/
theorem perform_eq (s : Solver α) (request : Request α) :
    (s.perform request).settings = request.settingsAfter s.settings ∧
      (s.perform request).diagnostics = s.diagnostics := by
  cases request with
  | solve p => exact s.solve_snd p
  | setSettings settings => exact ⟨rfl, rfl⟩
  | duplicate => exact ⟨rfl, rfl⟩

/-- **Requests** keep the diagnostics, and of the settings those that were chosen last. -/
theorem performAll_eq (s : Solver α) (requests : List (Request α)) :
    (s.performAll requests).settings = requests.foldl Request.settingsAfter s.settings ∧
      (s.performAll requests).diagnostics = s.diagnostics := by
  induction requests generalizing s with
  | nil => exact ⟨rfl, rfl⟩
  | cons request rest ih =>
    obtain ⟨hsettings, hdiagnostics⟩ := s.perform_eq request
    rw [List.foldl_cons, ← hsettings, ← hdiagnostics]
    exact ih (s.perform request)

/-- **History does not matter.**  Whatever a solver has been asked before, and whatever its memory
holds, it answers as a fresh solver does that has the current settings and the same diagnostics:
with the same error, or with the same status, point, cost, reports and pivots. -/
theorem solve_performAll_fst (s : Solver α) (requests : List (Request α)) (p : Problem α) :
    ((s.performAll requests).solve p).1 =
      ((fresh α (requests.foldl Request.settingsAfter s.settings) s.diagnostics).solve p).1 := by
  refine solve_fst_congr ?_ ?_ p
  · exact (s.performAll_eq requests).1
  · exact (s.performAll_eq requests).2

end Solver

end Complementarity
