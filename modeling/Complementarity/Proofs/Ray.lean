import Complementarity.Proofs.Infinitesimal
import Complementarity.Proofs.Path
import Complementarity.Proofs.Solution

/-!
# What a ray certifies

If nothing blocks the driving variable, the run has come upon a ray: from the vertex of the last
state one can go on for ever in the direction that the driving column describes.  What is proved
here:

* **the ray is complementary** — `State.Valid.exists_ray`: of each pair of partners one is zero at
  the vertex and in the direction alike, the artificial variable is positive at the vertex, and
  some `z_i` grows along the ray;
* **it is not the ray from which the run started** — the ray on which no `z_i` grows begins at the
  basis of the first state, where another variable drives, and no run comes back to that basis
  (`Lcp.Path.eq_zero_of_slack`);
* **every refusal has such a certificate** — `Lcp.exists_ray_of_noSolution`;
* **the certificate in rational vectors** — `Lcp.SecondaryRay.isRay`: without the perturbation the
  vertex and the direction are vectors that anybody can check (`Lcp.IsRay`).  So a solver that
  returns no solution has come upon a ray, whatever the matrix is (`Solver.isRay_of_noSolution`).
-/

namespace Complementarity

open Tableau Variable

variable {n : Nat} {p : Lcp ℚ n}

/-- A secondary ray: a vertex `x` of the perturbed augmented system and a direction `d` in which
one can leave it for ever, complementary to each other and to themselves. -/
structure Lcp.SecondaryRay (p : Lcp ℚ n) (x : Variable n → Perturbed n) (d : Variable n → ℚ) :
    Prop where
  augmented : p.Augmented Perturbed.power x
  direction : p.Augmented (0 : Fin (n + 1) → ℚ) d
  vertex_nonneg : ∀ u, 0 ≤ x u
  direction_nonneg : ∀ u, 0 ≤ d u
  artificial_pos : 0 < x (artificial n)
  complementary : ∀ i : Fin n, (x (.w i.castSucc) = 0 ∧ d (.w i.castSucc) = 0) ∨
    (x (.z i.castSucc) = 0 ∧ d (.z i.castSucc) = 0)
  exists_ne_zero : ∃ i : Fin n, d (.z i.castSucc) ≠ 0

/-! ## The direction of a column -/

namespace State

/-- The direction in which the variables move when the driving variable grows. -/
noncomputable def direction (s : State ℚ n) : Variable n → ℚ :=
  s.current.along (fun r => s.tableau.coefficient r s.driving) s.driving 1

namespace Valid

variable {s : State ℚ n}

theorem augmented_direction (h : s.Valid p) :
    p.Augmented (0 : Fin (n + 1) → ℚ) s.direction := by
  have halong := h.dictionary.augmented_along h.arranged (0 : Fin (n + 1) → ℚ) s.driving 1
  simp only [valueAt, Pi.zero_apply, smul_eq_mul, mul_zero, Finset.sum_const_zero, zero_add,
    mul_one] at halong
  exact halong

theorem direction_entering (h : s.Valid p) : s.direction s.entering = 1 :=
  Basis.along_inColumn h.arranged _ _ _

theorem direction_of_notMem {u : Variable n} (hu : u ∉ s.current.basicSet) (hne : u ≠ s.entering) :
    s.direction u = 0 :=
  Basis.along_of_ne _ _ _ hu hne

theorem direction_nonneg (h : s.Valid p) (hrow : s.tableau.blockingRow s.driving = none)
    (u : Variable n) : 0 ≤ s.direction u := by
  by_cases hu : u ∈ s.current.basicSet
  · obtain ⟨r, rfl⟩ := Basis.mem_basicSet.1 hu
    rw [direction, Basis.along_inRow h.arranged]
    exact (blockingRow_eq_none_iff _ _).1 hrow r
  · by_cases hne : u = s.entering
    · rw [hne, h.direction_entering]
      exact zero_le_one
    · exact (direction_of_notMem hu hne).ge

/-- A variable that moves, or could, has a partner that stays at zero. -/
theorem eq_zero_or_partner_eq_zero (h : s.Valid p) (hreleased : s.isReleased = false)
    {x : Variable n → Perturbed n} (hx : p.IsVertex s.current.basicSet x) (u : Variable n) :
    (x u = 0 ∧ s.direction u = 0) ∨ (x u.partner = 0 ∧ s.direction u.partner = 0) := by
  have hzero : ∀ v, v ∉ s.current.basicSet → v ≠ s.entering → x v = 0 ∧ s.direction v = 0 :=
    fun v hv hne => ⟨hx.zero v hv, direction_of_notMem hv hne⟩
  have hentering := h.entering_eq hreleased
  by_cases hu : u ∈ s.current.basicSet
  · refine Or.inr (hzero _ (h.arranged.partner_notMem_basicSet hu) fun heq => ?_)
    rw [hentering] at heq
    exact h.leaving_notMem (partner_injective heq ▸ hu)
  · by_cases hne : u = s.entering
    · rw [hne, hentering, partner_partner]
      refine Or.inr (hzero _ h.leaving_notMem fun heq => ?_)
      rw [hentering] at heq
      exact partner_ne _ heq.symm
    · exact Or.inl (hzero u hu hne)

end Valid

end State

/-! ## The ray from which the run started -/

/-- A state of a path in whose basis there are no `z_j` is the first one. -/
theorem Lcp.Path.eq_zero_of_slack {m : Nat} {t : Nat → State ℚ n} (h : p.Path m t)
    (hreleased : (t m).isReleased = false)
    (hz : ∀ j : Fin n, Variable.z j.castSucc ∉ (t m).current.basicSet) : m = 0 := by
  obtain ⟨row, hstart, hneg, hle⟩ := Lcp.le_of_start_eq_some h.start
  have hvalid := h.valid le_rfl
  have hlinked := hvalid.linked hreleased
  obtain ⟨k, hmissing⟩ := hlinked.exists_missing
  have hk := (hmissing k).2 rfl
  have hrow : Variable.w row.castSucc ∉ (t m).current.basicSet := fun hmem =>
    hk.1 ((hvalid.isVertex.mem_of_slack hneg hle hz hmem).2 k)
  obtain rfl : row = k := (hmissing row).1 ⟨hrow, hz row⟩
  have hset : (t m).current.basicSet = (t 0).current.basicSet := by
    ext v
    rw [hstart, State.mem_basicSet_start]
    constructor
    · intro hv
      cases v using rowCases with
      | artificial => exact Or.inl rfl
      | formal => exact absurd hv hvalid.arranged.formal_notMem_basicSet
      | w i => exact Or.inr ⟨i, fun hi => hrow (hi ▸ hv), rfl⟩
      | z i => exact absurd hv (hz i)
    · rintro (rfl | ⟨i, hi, rfl⟩)
      · exact hvalid.artificial_mem_iff.2 hreleased
      · by_contra hmem
        exact hi ((hmissing i).1 ⟨hmem, hz i⟩)
  by_contra hm
  exact h.basicSet_ne le_rfl (Nat.pos_of_ne_zero hm) hset.symm

/-- The slack variable that leaves the basis of the first state is followed by its partner. -/
theorem Lcp.entering_of_start {s : State ℚ n} (h : p.start? = some s) :
    ∃ row : Fin n, s.entering = .z row.castSucc := by
  obtain ⟨row, rfl, -⟩ := Lcp.le_of_start_eq_some h
  refine ⟨row, ?_⟩
  have hleaving : (State.start p.loaded row).leaving = .w row.castSucc :=
    (State.inColumn_current _).trans (Basis.inRow_initial row)
  rw [(State.bookkept_start _ row).entering_eq ?_, hleaving, partner]
  have hproper : (Variable.w row.castSucc).isArtificial = false := by simp [isArtificial, index]
  rwa [← hleaving] at hproper

/-- **Some `z_i` grows.**  Otherwise all slack variables would grow with the artificial one, so no
`z_j` would be basic, and the last state would be the first one; but there a `z_j` drives. -/
theorem Lcp.Path.exists_direction_ne_zero {m : Nat} {t : Nat → State ℚ n} (h : p.Path m t)
    (hreleased : (t m).isReleased = false) :
    ∃ i : Fin n, (t m).direction (.z i.castSucc) ≠ 0 := by
  by_contra hnone
  have hzero : ∀ i : Fin n, (t m).direction (.z i.castSucc) = 0 := by
    intro i
    by_contra hne
    exact hnone ⟨i, hne⟩
  have hvalid := h.valid le_rfl
  have hslack : ∀ i : Fin n, (t m).direction (.w i.castSucc) = (t m).direction (artificial n) := by
    intro i
    rw [hvalid.augmented_direction.slack_eq hzero i]
    simp only [Pi.zero_apply, smul_zero, add_zero, zero_add]
  have hdrives := hvalid.direction_entering
  obtain ⟨k, hentering | hentering⟩ := hvalid.entering_eq_w_or_z hreleased
  · rw [hentering] at hdrives
    have hgrows : ∀ i : Fin n, (t m).direction (.w i.castSucc) = 1 := fun i =>
      (hslack i).trans ((hslack k).symm.trans hdrives)
    have hz : ∀ j : Fin n, Variable.z j.castSucc ∉ (t m).current.basicSet := by
      intro j hj
      rcases hvalid.eq_zero_or_partner_eq_zero hreleased hvalid.isVertex (.z j.castSucc) with
        ⟨hx, -⟩ | ⟨-, hd⟩
      · exact (hvalid.isVertex.pos _ hj).ne' hx
      · exact one_ne_zero ((hgrows j).symm.trans hd)
    obtain rfl := h.eq_zero_of_slack hreleased hz
    obtain ⟨row, hrow⟩ := Lcp.entering_of_start h.start
    rw [hrow] at hentering
    nomatch hentering
  · rw [hentering, hzero k] at hdrives
    exact zero_ne_one hdrives

/-! ## Certificates -/

/-- **The ray at the end of a path.** -/
theorem Lcp.Path.exists_ray {m : Nat} {t : Nat → State ℚ n} (h : p.Path m t)
    (hreleased : (t m).isReleased = false)
    (hrow : (t m).tableau.blockingRow (t m).driving = none) :
    ∃ x d, p.SecondaryRay x d := by
  have hvalid := h.valid le_rfl
  have hvertex := hvalid.isVertex
  refine ⟨_, (t m).direction, hvertex.augmented, hvalid.augmented_direction, fun u => ?_,
    hvalid.direction_nonneg hrow, hvertex.pos _ (hvalid.artificial_mem_iff.2 hreleased),
    fun i => hvalid.eq_zero_or_partner_eq_zero hreleased hvertex (.w i.castSucc),
    h.exists_direction_ne_zero hreleased⟩
  by_cases hu : u ∈ (t m).current.basicSet
  · exact (hvertex.pos u hu).le
  · exact (hvertex.zero u hu).ge

/-- The last state of a run is the end of a path. -/
theorem Lcp.exists_path_final {s : State ℚ n} (h : p.start? = some s) (budget : Nat) :
    ∃ m t, p.Path m t ∧ t m = s.final budget := by
  obtain ⟨i, hi, heq⟩ := List.getElem_of_mem (s.final_mem_trace budget)
  have hpath := p.path_trace h budget
  refine ⟨i, _, ⟨hpath.start, fun j hj => hpath.step j (by omega)⟩, ?_⟩
  rw [List.getD_eq_getElem _ _ hi, heq]

/-- **Every refusal has a certificate.**  A run that ends without a solution ends on a secondary
ray. -/
theorem Lcp.exists_ray_of_noSolution (p : Lcp ℚ n) {settings : Settings} {d : Diagnostics}
    {workspace : Tableau ℚ n} {buffer : Point ℚ n}
    (h : (p.run settings d workspace buffer).1.status = .noSolution) :
    ∃ x d, p.SecondaryRay x d := by
  cases hstart : p.start? with
  | none =>
    rw [run_of_start_eq_none p settings d workspace buffer hstart] at h
    nomatch h
  | some s =>
    rw [status_run_eq hstart] at h
    split at h
    · rename_i hlength
      split at h
      · nomatch h
      · rename_i hstays
        have hreleased := Bool.eq_false_iff.2 hstays
        have hunblocked := State.ending_of_unblocked hreleased (s.not_pivoted_final hlength)
        obtain ⟨m, t, hpath, hend⟩ := p.exists_path_final hstart (settings.budget n)
        rw [← hend] at hreleased hunblocked
        exact hpath.exists_ray hreleased hunblocked.2
    · nomatch h

/-! ## Rational vectors -/

/-- A secondary ray in rational vectors.  The point `x` solves the system in which `s` is added to
each row, and so does every point in the direction `d` from there, if `s` grows with `t`; and on the
whole ray no entry is negative and one of any two partners is zero. -/
structure Lcp.IsRay (p : Lcp ℚ n) (x : Point ℚ n) (s : ℚ) (d : Point ℚ n) (t : ℚ) : Prop where
  point_equation : ∀ i, x.w.get i = p.q.get i + ∑ j, p.m.entry i j * x.z.get j + s
  point_w_nonneg : ∀ i, 0 ≤ x.w.get i
  point_z_nonneg : ∀ i, 0 ≤ x.z.get i
  point_artificial_nonneg : 0 ≤ s
  direction_equation : ∀ i, d.w.get i = ∑ j, p.m.entry i j * d.z.get j + t
  direction_w_nonneg : ∀ i, 0 ≤ d.w.get i
  direction_z_nonneg : ∀ i, 0 ≤ d.z.get i
  direction_artificial_nonneg : 0 ≤ t
  exists_z_ne_zero : ∃ i, d.z.get i ≠ 0
  point_point : ∀ i, x.w.get i * x.z.get i = 0
  point_direction : ∀ i, x.w.get i * d.z.get i = 0
  direction_point : ∀ i, d.w.get i * x.z.get i = 0
  direction_direction : ∀ i, d.w.get i * d.z.get i = 0

/-- The values of the proper variables. -/
def Point.ofValues (x : Variable n → ℚ) : Point ℚ n :=
  ⟨Vector.ofFn fun i => x (.w i.castSucc), Vector.ofFn fun i => x (.z i.castSucc)⟩

@[simp] theorem Point.get_w_ofValues (x : Variable n → ℚ) (i : Fin n) :
    (Point.ofValues x).w.get i = x (.w i.castSucc) :=
  vector_get_ofFn _ i

@[simp] theorem Point.get_z_ofValues (x : Variable n → ℚ) (i : Fin n) :
    (Point.ofValues x).z.get i = x (.z i.castSucc) :=
  vector_get_ofFn _ i

/-- **The ray without the perturbation.**  The constant coefficients of the vertex and the direction
are a ray in rational vectors. -/
theorem Lcp.SecondaryRay.isRay {x : Variable n → Perturbed n} {d : Variable n → ℚ}
    (h : p.SecondaryRay x d) :
    p.IsRay (.ofValues (Perturbed.evalAt 0 ∘ x)) (Perturbed.evalAt 0 (x (artificial n)))
      (.ofValues d) (d (artificial n)) := by
  have hnonneg : ∀ u, 0 ≤ Perturbed.evalAt 0 (x u) := by
    intro u
    rw [Perturbed.evalAt_zero]
    exact Perturbed.constant_nonneg (h.vertex_nonneg u)
  -- of two partners one is zero in the vertex and the direction, so all four products vanish
  have hproducts : ∀ i : Fin n, (Perturbed.evalAt 0 (x (.w i.castSucc)) = 0 ∧
      d (.w i.castSucc) = 0) ∨ (Perturbed.evalAt 0 (x (.z i.castSucc)) = 0 ∧
      d (.z i.castSucc) = 0) := by
    intro i
    refine (h.complementary i).imp (fun hw => ⟨?_, hw.2⟩) fun hz => ⟨?_, hz.2⟩
    · rw [hw.1, map_zero]
    · rw [hz.1, map_zero]
  refine ⟨fun i => ?_, fun i => ?_, fun i => ?_, hnonneg _, fun i => ?_, fun i => ?_, fun i => ?_,
    h.direction_nonneg _, ?_, fun i => ?_, fun i => ?_, fun i => ?_, fun i => ?_⟩
  · have hrow := (h.augmented.map (Perturbed.evalAt 0)).row i
    simp only [Function.comp_apply, Perturbed.evalAt_power, Fin.val_zero, Fin.val_succ, pow_zero,
      pow_succ, mul_zero, add_zero, smul_eq_mul, mul_one] at hrow
    simp only [Point.get_w_ofValues, Point.get_z_ofValues, Function.comp_apply]
    exact hrow
  · rw [Point.get_w_ofValues]
    exact hnonneg _
  · rw [Point.get_z_ofValues]
    exact hnonneg _
  · have hrow := h.direction.row i
    simp only [Pi.zero_apply, smul_eq_mul, mul_zero, zero_add] at hrow
    simp only [Point.get_w_ofValues, Point.get_z_ofValues]
    exact hrow
  · rw [Point.get_w_ofValues]
    exact h.direction_nonneg _
  · rw [Point.get_z_ofValues]
    exact h.direction_nonneg _
  · obtain ⟨i, hi⟩ := h.exists_ne_zero
    exact ⟨i, by rwa [Point.get_z_ofValues]⟩
  all_goals
    simp only [Point.get_w_ofValues, Point.get_z_ofValues, Function.comp_apply, mul_eq_zero]
    obtain ⟨hx, hd⟩ | ⟨hx, hd⟩ := hproducts i
    · simp only [hx, hd, true_or]
    · simp only [hx, hd, or_true]

/-- **What a refusal certifies.**  For every matrix, a solver that returns no solution has come upon
a secondary ray, which is not the one from which every run starts. -/
theorem Solver.isRay_of_noSolution (s : Solver ℚ) {p : Problem ℚ} {lcp : Lcp ℚ p.dim}
    (hp : p.sized = .ok lcp) (hs : s.settings.isUsable = true) :
    ∃ o, (s.solve p).1 = .ok o ∧
      (o.status = .noSolution → ∃ x s d t, lcp.IsRay x s d t) := by
  refine ⟨_, s.solve_fst hp hs, fun hstatus => ?_⟩
  obtain ⟨x, d, hray⟩ := lcp.exists_ray_of_noSolution hstatus
  exact ⟨_, _, _, _, hray.isRay⟩

/-- A problem with the solution `z = (1, 0)`, `w = (0, 0)`, which a run does not come upon. -/
def missed : Lcp ℚ 2 :=
  ⟨#v[-2, -1], Dense.ofFn fun i j => if i = 1 ∧ j = 1 then 0 else if i = 0 ∧ j = 0 then 2 else 1⟩

theorem isRay_missed :
    ∃ o, ((Solver.new ℚ {}).solve (.ofLcp missed)).1 = .ok o ∧ o.status = .noSolution ∧
      (∃ x s d t, missed.IsRay x s d t) ∧ missed.IsSolution ⟨#v[0, 0], #v[1, 0]⟩ := by
  have hstatus : ((Solver.new ℚ {}).solve (.ofLcp missed)).1.toOption.map Outcome.status =
      some .noSolution := by decide +kernel
  have hsized : (Problem.ofLcp missed).sized = .ok missed := rfl
  obtain ⟨o, ho, hray⟩ := (Solver.new ℚ {}).isRay_of_noSolution hsized rfl
  rw [ho] at hstatus
  have hrefused : o.status = .noSolution := Option.some.inj hstatus
  refine ⟨o, ho, hrefused, hray hrefused, ?_, ?_, ?_, ?_⟩ <;> decide +kernel

end Complementarity
