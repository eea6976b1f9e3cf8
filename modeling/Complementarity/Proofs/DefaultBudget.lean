import Mathlib.Algebra.BigOperators.Fin
import Mathlib.LinearAlgebra.Matrix.Symmetric
import Complementarity.Proofs.FixedDimension
import Complementarity.Proofs.VertexCount

/-!
# The default budget on positive definite problems

Without a limit of its own a run in dimension `n` may make `n + 2` iterations.  That is as many as
there are bases to meet in dimensions one and two, but a symmetric positive definite problem of
dimension three can need six.  A row and a column that have nothing to do with the others add at
least one vertex, so in every greater dimension there is such a problem as well.

* **adjoining a row** — `Lcp.adjoin`: each vertex of a problem is one of the larger problem
  (`Lcp.hasVertex_adjoin`), which has another one where the new pair is left out
  (`Lcp.hasVertex_adjoin_last`), so it takes more iterations (`Lcp.threshold_lt_threshold_adjoin`);
* **three dimensions** — `winding` is symmetric and positive definite and takes six iterations
  (`threshold_winding`);
* **the default budget** — `Solver.solve_default_budget`: it is enough for all symmetric positive
  definite problems of dimension one and two, and in every greater dimension there are some for
  which it is not.
-/

namespace Complementarity

open Matrix Tableau Variable

variable {n : Nat}

/-! ## One more power of the infinitesimal -/

namespace Perturbed

/-- The same polynomial, of a degree that may be greater by one. -/
def extend : Perturbed n →ₗ[ℚ] Perturbed (n + 1) where
  toFun x := toLex (Fin.snoc (α := fun _ => ℚ) (ofLex x) 0)
  map_add' x y := by
    refine ofLex_inj.1 (funext fun k => ?_)
    show Fin.snoc (α := fun _ => ℚ) (ofLex x + ofLex y) 0 k =
      Fin.snoc (α := fun _ => ℚ) (ofLex x) 0 k + Fin.snoc (α := fun _ => ℚ) (ofLex y) 0 k
    cases k using Fin.lastCases <;> simp
  map_smul' a x := by
    refine ofLex_inj.1 (funext fun k => ?_)
    show Fin.snoc (α := fun _ => ℚ) (a • ofLex x) 0 k =
      a * Fin.snoc (α := fun _ => ℚ) (ofLex x) 0 k
    cases k using Fin.lastCases <;> simp

theorem ofLex_extend_castSucc (x : Perturbed n) (k : Fin (n + 1)) :
    ofLex (extend x) k.castSucc = ofLex x k :=
  Fin.snoc_castSucc (α := fun _ => ℚ) _ _ _

theorem ofLex_extend_last (x : Perturbed n) : ofLex (extend x) (Fin.last (n + 1)) = 0 :=
  Fin.snoc_last (α := fun _ => ℚ) _ _

theorem extend_power (k : Fin (n + 1)) : extend (power k) = power k.castSucc := by
  refine ofLex_inj.1 (funext fun j => ?_)
  cases j using Fin.lastCases with
  | last =>
    rw [ofLex_extend_last, power, ofLex_toLex, Pi.single_eq_of_ne k.castSucc_lt_last.ne']
  | cast j =>
    rw [ofLex_extend_castSucc, power, power, ofLex_toLex, ofLex_toLex, Pi.single_apply,
      Pi.single_apply]
    simp only [Fin.castSucc_inj]

theorem extend_pos {x : Perturbed n} (h : 0 < x) : 0 < extend x := by
  obtain ⟨k, hpos, hlower⟩ := exists_leading h
  refine ⟨k.castSucc, fun j hj => ?_, ?_⟩
  · have hval : j.val < k.val := hj
    obtain ⟨j, rfl⟩ := Fin.exists_castSucc_eq.2 (hj.trans k.castSucc_lt_last).ne
    exact ((ofLex_extend_castSucc x j).trans (hlower j hval)).symm
  · show 0 < ofLex (extend x) k.castSucc
    rw [ofLex_extend_castSucc]
    exact hpos

end Perturbed

/-! ## One more pair of variables -/

namespace Variable

/-- The same variable in a problem with another row at the end, whose index is skipped. -/
def lift : Variable n → Variable (n + 1)
  | .w i => .w ((Fin.last n).castSucc.succAbove i)
  | .z i => .z ((Fin.last n).castSucc.succAbove i)

theorem succAbove_castSucc_last (i : Fin n) :
    (Fin.last n).castSucc.succAbove i.castSucc = i.castSucc.castSucc :=
  Fin.succAbove_of_castSucc_lt _ _ i.castSucc_lt_last

theorem succAbove_last (n : Nat) :
    (Fin.last n).castSucc.succAbove (Fin.last n) = Fin.last (n + 1) :=
  Fin.succAbove_of_le_castSucc _ _ le_rfl

theorem lift_w (i : Fin n) : lift (.w i.castSucc) = .w i.castSucc.castSucc :=
  congrArg Variable.w (succAbove_castSucc_last i)

theorem lift_z (i : Fin n) : lift (.z i.castSucc) = .z i.castSucc.castSucc :=
  congrArg Variable.z (succAbove_castSucc_last i)

theorem lift_artificial (n : Nat) : lift (artificial n) = artificial (n + 1) :=
  congrArg Variable.z (succAbove_last n)

theorem lift_formal (n : Nat) : lift (formal n) = formal (n + 1) :=
  congrArg Variable.w (succAbove_last n)

/-- A variable of the larger problem is one of the smaller problem, or one of the new pair. -/
@[elab_as_elim]
theorem liftCases {motive : Variable (n + 1) → Prop} (lift : ∀ v : Variable n, motive (lift v))
    (w : motive (.w (Fin.last n).castSucc)) (z : motive (.z (Fin.last n).castSucc))
    (u : Variable (n + 1)) : motive u := by
  cases u with
  | w i => exact Fin.succAboveCases (Fin.last n).castSucc w (fun i => lift (.w i)) i
  | z i => exact Fin.succAboveCases (Fin.last n).castSucc z (fun i => lift (.z i)) i

end Variable

/-! ## Adjoining a row -/

/-- The problem with another row and column that have nothing to do with the others. -/
def Lcp.adjoin (p : Lcp ℚ n) (c : ℚ) : Lcp ℚ (n + 1) where
  q := Vector.ofFn (Fin.snoc (α := fun _ => ℚ) p.q.get (-c))
  m := Dense.ofFn (Fin.snoc (α := fun _ => Fin (n + 1) → ℚ)
    (fun i => Fin.snoc (α := fun _ => ℚ) (p.m.entry i) 0) (Pi.single (Fin.last n) 1))

namespace Lcp

variable (p : Lcp ℚ n) (c : ℚ)

@[simp] theorem get_q_adjoin_castSucc (i : Fin n) : (p.adjoin c).q.get i.castSucc = p.q.get i := by
  simp [adjoin]

@[simp] theorem get_q_adjoin_last : (p.adjoin c).q.get (Fin.last n) = -c := by
  simp [adjoin]

@[simp] theorem entry_adjoin_castSucc (i j : Fin n) :
    (p.adjoin c).m.entry i.castSucc j.castSucc = p.m.entry i j := by
  simp [adjoin]

@[simp] theorem entry_adjoin_castSucc_last (i : Fin n) :
    (p.adjoin c).m.entry i.castSucc (Fin.last n) = 0 := by
  simp [adjoin]

@[simp] theorem entry_adjoin_last_castSucc (j : Fin n) :
    (p.adjoin c).m.entry (Fin.last n) j.castSucc = 0 := by
  simp [adjoin]

@[simp] theorem entry_adjoin_last : (p.adjoin c).m.entry (Fin.last n) (Fin.last n) = 1 := by
  simp [adjoin]

variable {p c}

theorem isSymm_adjoin (h : p.m.toMatrix.IsSymm) : (p.adjoin c).m.toMatrix.IsSymm := by
  refine IsSymm.ext fun i j => ?_
  show (p.adjoin c).m.entry j i = (p.adjoin c).m.entry i j
  cases i using Fin.lastCases with
  | last => cases j using Fin.lastCases <;> simp
  | cast i =>
    cases j using Fin.lastCases with
    | last => simp
    | cast j =>
      rw [entry_adjoin_castSucc, entry_adjoin_castSucc]
      exact h.apply i j

/-- The quadratic form is that of the problem, plus a square. -/
theorem isPosDef_adjoin (h : p.m.IsPosDef) : (p.adjoin c).m.IsPosDef := by
  intro x hne
  have hform : x ⬝ᵥ (p.adjoin c).m.toMatrix *ᵥ x =
      (fun i : Fin n => x i.castSucc) ⬝ᵥ p.m.toMatrix *ᵥ (fun i => x i.castSucc) +
        x (Fin.last n) ^ 2 := by
    simp only [dotProduct, Dense.mulVec_eq_sum, Fin.sum_univ_castSucc, entry_adjoin_castSucc,
      entry_adjoin_castSucc_last, entry_adjoin_last_castSucc, entry_adjoin_last, zero_mul, add_zero,
      Finset.sum_const_zero, zero_add, one_mul]
    ring
  rw [hform]
  by_cases hzero : (fun i : Fin n => x i.castSucc) = 0
  · have hlast : x (Fin.last n) ≠ 0 := by
      intro hlast
      refine hne (funext fun i => ?_)
      cases i using Fin.lastCases with
      | last => exact hlast
      | cast i => exact congrFun hzero i
    rw [hzero, zero_dotProduct, zero_add]
    exact sq_pos_iff.2 hlast
  · exact add_pos_of_pos_of_nonneg (h _ hzero) (sq_nonneg _)

/-! ### The vertices of the larger problem -/

/-- The same values in the larger problem, where the new `z` makes up for the new constant. -/
def adjoined (c : ℚ) (x : Variable n → Perturbed n) : Variable (n + 1) → Perturbed (n + 1)
  | .w i => Fin.insertNth (α := fun _ => Perturbed (n + 1)) (Fin.last n).castSucc 0
      (fun i => Perturbed.extend (x (.w i))) i
  | .z i => Fin.insertNth (α := fun _ => Perturbed (n + 1)) (Fin.last n).castSucc
      (c • Perturbed.power 0 - Perturbed.power (Fin.last (n + 1)) -
        Perturbed.extend (x (artificial n)))
      (fun i => Perturbed.extend (x (.z i))) i

section Adjoined

variable (c : ℚ) (x : Variable n → Perturbed n)

@[simp] theorem adjoined_lift (v : Variable n) :
    adjoined c x (lift v) = Perturbed.extend (x v) := by
  cases v <;> simp [adjoined, lift]

@[simp] theorem adjoined_w_last : adjoined c x (.w (Fin.last n).castSucc) = 0 := by
  simp [adjoined]

@[simp] theorem adjoined_z_last : adjoined c x (.z (Fin.last n).castSucc) =
    c • Perturbed.power 0 - Perturbed.power (Fin.last (n + 1)) -
      Perturbed.extend (x (artificial n)) := by
  simp [adjoined]

theorem constant_adjoined_z_last :
    ofLex (adjoined c x (.z (Fin.last n).castSucc)) 0 = c - ofLex (x (artificial n)) 0 := by
  rw [adjoined_z_last]
  show c * ofLex (Perturbed.power 0) 0 - ofLex (Perturbed.power (Fin.last (n + 1))) 0 -
    ofLex (Perturbed.extend (x (artificial n))) (Fin.castSucc 0) = _
  rw [Perturbed.ofLex_extend_castSucc, Perturbed.power, Perturbed.power, ofLex_toLex, ofLex_toLex,
    Pi.single_eq_same, Pi.single_eq_of_ne Fin.last_pos.ne, mul_one, sub_zero]

end Adjoined

theorem augmented_adjoined {x : Variable n → Perturbed n} (h : p.Augmented Perturbed.power x) :
    (p.adjoin c).Augmented Perturbed.power (adjoined c x) := by
  refine ⟨fun i => ?_⟩
  cases i using Fin.lastCases with
  | last =>
    simp only [Fin.sum_univ_castSucc, get_q_adjoin_last, entry_adjoin_last_castSucc,
      entry_adjoin_last, ← lift_artificial, adjoined_lift, adjoined_w_last, adjoined_z_last,
      zero_smul, Finset.sum_const_zero, zero_add, one_smul, Fin.succ_last, neg_smul]
    abel
  | cast i =>
    have hrow := congrArg Perturbed.extend (h.row i)
    simp only [map_add, map_smul, map_sum, Perturbed.extend_power] at hrow
    simp only [Fin.sum_univ_castSucc, get_q_adjoin_castSucc, entry_adjoin_castSucc,
      entry_adjoin_castSucc_last, ← lift_w, ← lift_z, ← lift_artificial, adjoined_lift, zero_smul,
      add_zero, hrow, Fin.succ_castSucc, Fin.castSucc_zero]

/-- The choice in the larger problem that takes the new `z`. -/
def adjoinChoice (a : Σ _ : Fin n, Finset (Fin n)) : Σ _ : Fin (n + 1), Finset (Fin (n + 1)) :=
  ⟨a.1.castSucc, insert (Fin.last n) (a.2.image Fin.castSucc)⟩

theorem castSucc_mem_adjoinChoice {a : Σ _ : Fin n, Finset (Fin n)} {i : Fin n} :
    i.castSucc ∈ (adjoinChoice a).2 ↔ i ∈ a.2 := by
  simp [adjoinChoice, i.castSucc_lt_last.ne]

theorem adjoinChoice_injective : Function.Injective (adjoinChoice (n := n)) := by
  rintro ⟨k, T⟩ ⟨k', T'⟩ heq
  obtain rfl : k = k' := Fin.castSucc_injective n (congrArg Sigma.fst heq)
  have hmem : ∀ i, i ∈ T ↔ i ∈ T' := fun i => by
    rw [← castSucc_mem_adjoinChoice (a := ⟨k, T⟩), heq, castSucc_mem_adjoinChoice]
  rw [Finset.ext hmem]

theorem lift_mem_choice {a : Σ _ : Fin n, Finset (Fin n)} {v : Variable n} :
    lift v ∈ choice (adjoinChoice a).1 (adjoinChoice a).2 ↔ v ∈ choice a.1 a.2 := by
  have hne : ∀ {i : Fin n}, i.castSucc ≠ (adjoinChoice a).1 ↔ i ≠ a.1 :=
    (Fin.castSucc_injective n).ne_iff
  cases v using rowCases with
  | artificial =>
    rw [lift_artificial]
    exact iff_of_true (artificial_mem_choice _ _) (artificial_mem_choice _ _)
  | formal =>
    rw [lift_formal]
    exact iff_of_false (formal_notMem_choice _ _) (formal_notMem_choice _ _)
  | w i => rw [lift_w, w_mem_choice, w_mem_choice, hne, castSucc_mem_adjoinChoice]
  | z i => rw [lift_z, z_mem_choice, z_mem_choice, hne, castSucc_mem_adjoinChoice]

/-- **A vertex of the problem** is one of the larger problem. -/
theorem hasVertex_adjoin {a : Σ _ : Fin n, Finset (Fin n)} {x : Variable n → Perturbed n}
    (hx : p.IsVertex (choice a.1 a.2) x) (hc : ofLex (x (artificial n)) 0 < c) :
    (p.adjoin c).HasVertex (choice (adjoinChoice a).1 (adjoinChoice a).2) := by
  have hlast : Fin.last n ∈ (adjoinChoice a).2 := Finset.mem_insert_self _ _
  refine ⟨adjoined c x, augmented_adjoined hx.augmented, fun u hu => ?_, fun u hu => ?_⟩
  · cases u using liftCases with
    | lift v =>
      rw [adjoined_lift]
      exact Perturbed.extend_pos (hx.pos v (lift_mem_choice.1 hu))
    | w => exact absurd hlast (w_mem_choice.1 hu).2
    | z =>
      refine Perturbed.lt_of_constant_lt ?_
      rw [constant_adjoined_z_last]
      exact sub_pos.2 hc
  · cases u using liftCases with
    | lift v => rw [adjoined_lift, hx.zero v (mt lift_mem_choice.2 hu), map_zero]
    | w => exact adjoined_w_last c x
    | z => exact absurd (z_mem_choice.2 ⟨a.1.castSucc_lt_last.ne', hlast⟩) hu

/-- The artificial variable is below a bound that makes all constants positive. -/
theorem IsVertex.constant_artificial_lt (hm : p.m.NoSignReversal) {s : State ℚ n}
    (hstart : p.start? = some s) (hc : ∀ i, -c < p.q.get i) {k : Fin n} {T : Finset (Fin n)}
    {x : Variable n → Perturbed n} (hx : p.IsVertex (choice k T) x) :
    ofLex (x (artificial n)) 0 < c := by
  obtain ⟨row, hrow, -⟩ := vertex_start hstart
  have hcomplementary := hx.isComplementary (fun _ => partner_notMem_choice)
    (formal_notMem_choice k T)
  have hle : x (artificial n) ≤ -p.loaded.value row := by
    rw [neg_eq_of_add_eq_zero_right hrow]
    exact hcomplementary.artificial_le (isDetermined_of_noSignReversal hm)
      (hx.zero (.w k.castSucc) fun hmem => (w_mem_choice.1 hmem).1 rfl) hstart
  calc ofLex (x (artificial n)) 0
      ≤ -ofLex (p.loaded.value row) 0 := Perturbed.constant_le hle
    _ = -p.q.get row := by rw [constant_value_loaded]
    _ < c := neg_lt.1 (hc row)

/-- The larger problem starts with a pivot in the new row. -/
theorem start?_adjoin (hpos : 0 < c) (hc : ∀ i, -c < p.q.get i) :
    (p.adjoin c).start? = some (State.start (p.adjoin c).loaded (Fin.last n)) := by
  refine start?_eq_some_of_lt (Perturbed.lt_of_constant_lt ?_) fun r hr =>
    Perturbed.lt_of_constant_lt ?_
  · rw [constant_value_loaded, get_q_adjoin_last]
    exact neg_neg_of_pos hpos
  · obtain ⟨r, rfl⟩ := Fin.exists_castSucc_eq.2 hr
    rw [constant_value_loaded, constant_value_loaded, get_q_adjoin_last, get_q_adjoin_castSucc]
    exact hc r

/-- **A new vertex**: that of the first state, where the new pair is left out. -/
theorem hasVertex_adjoin_last (hpos : 0 < c) (hc : ∀ i, -c < p.q.get i) :
    (p.adjoin c).HasVertex (choice (Fin.last n) ∅) := by
  have hvertex := (State.valid_of_start (start?_adjoin hpos hc)).hasVertex
  have hset : (State.start (p.adjoin c).loaded (Fin.last n)).current.basicSet =
      choice (Fin.last n) ∅ := by
    ext u
    rw [State.mem_basicSet_start]
    cases u using rowCases with
    | artificial => exact iff_of_true (Or.inl rfl) (artificial_mem_choice _ _)
    | formal =>
      refine iff_of_false ?_ (formal_notMem_choice _ _)
      rintro (heq | ⟨r, -, heq⟩)
      · exact partner_ne (artificial (n + 1)) heq
      · exact r.castSucc_lt_last.ne' (Variable.w.inj heq)
    | w i => simp [w_mem_choice, artificial]
    | z i => simp [z_mem_choice, artificial, i.castSucc_lt_last.ne]
  exact hset ▸ hvertex

/-- **Adjoining a row** makes the run longer. -/
theorem threshold_lt_threshold_adjoin (hm : p.m.IsPosDef) {s : State ℚ n}
    (hstart : p.start? = some s) (hpos : 0 < c) (hc : ∀ i, -c < p.q.get i) :
    p.threshold < (p.adjoin c).threshold := by
  rw [threshold_eq_card_meetable hm.noSignReversal hstart,
    threshold_eq_card_meetable (isPosDef_adjoin hm).noSignReversal (start?_adjoin hpos hc),
    Nat.cast_lt, Nat.add_lt_add_iff_right]
  have hnew : (⟨Fin.last n, ∅⟩ : Σ _ : Fin (n + 1), Finset (Fin (n + 1))) ∉
      p.meetable.image adjoinChoice := by
    intro hmem
    obtain ⟨a, -, heq⟩ := Finset.mem_image.1 hmem
    exact a.1.castSucc_lt_last.ne (congrArg Sigma.fst heq)
  have hsubset : insert ⟨Fin.last n, ∅⟩ (p.meetable.image adjoinChoice) ⊆
      (p.adjoin c).meetable := by
    intro b hb
    rcases Finset.mem_insert.1 hb with rfl | hb
    · exact mem_meetable.2 ⟨Finset.empty_subset _, hasVertex_adjoin_last hpos hc⟩
    · obtain ⟨a, ha, rfl⟩ := Finset.mem_image.1 hb
      obtain ⟨hT, x, hx⟩ := mem_meetable.1 ha
      refine mem_meetable.2 ⟨fun i hi => ?_, hasVertex_adjoin hx
        (hx.constant_artificial_lt hm.noSignReversal hstart hc)⟩
      refine Finset.mem_erase.2 ⟨?_, Finset.mem_univ i⟩
      rintro rfl
      exact (Finset.mem_erase.1 (hT (castSucc_mem_adjoinChoice.1 hi))).1 rfl
  calc p.meetable.card
      = (p.meetable.image adjoinChoice).card :=
        (Finset.card_image_of_injective _ adjoinChoice_injective).symm
    _ < (insert ⟨Fin.last n, ∅⟩ (p.meetable.image adjoinChoice)).card := by
        rw [Finset.card_insert_of_notMem hnew]
        exact Nat.lt_succ_self _
    _ ≤ (p.adjoin c).meetable.card := Finset.card_le_card hsubset

end Lcp

/-! ## Three dimensions -/

/-- A symmetric positive definite problem of dimension three with a long run. -/
def winding : Lcp ℚ 3 where
  q := #v[-5, -5, -2]
  m := Dense.ofFn fun i j => !![1, 2, -2; 2, 5, -5; -2, -5, 6] i j

theorem isSymm_winding : winding.m.toMatrix.IsSymm := by
  refine IsSymm.ext ?_
  show ∀ i j, winding.m.entry j i = winding.m.entry i j
  decide +kernel

theorem isPosDef_winding : winding.m.IsPosDef := by
  intro x hne
  have hsquares : x ⬝ᵥ winding.m.toMatrix *ᵥ x =
      (x 0 + 2 * x 1 - 2 * x 2) ^ 2 + (x 1 - x 2) ^ 2 + x 2 ^ 2 := by
    simp only [dotProduct, Dense.mulVec_eq_sum, Fin.sum_univ_three, winding, Dense.entry_ofFn,
      of_apply, cons_val]
    ring
  rw [hsquares]
  by_contra hle
  have hfirst := sq_nonneg (x 0 + 2 * x 1 - 2 * x 2)
  have hsecond := sq_nonneg (x 1 - x 2)
  have hthird := sq_nonneg (x 2)
  have h2 : x 2 = 0 := pow_eq_zero_iff two_ne_zero |>.1 (by linarith)
  have h1 : x 1 - x 2 = 0 := pow_eq_zero_iff two_ne_zero |>.1 (by linarith)
  have h0 : x 0 + 2 * x 1 - 2 * x 2 = 0 := pow_eq_zero_iff two_ne_zero |>.1 (by linarith)
  refine hne (funext fun i => ?_)
  fin_cases i
  · show x 0 = 0
    linarith
  · show x 1 = 0
    linarith
  · exact h2

/-- The run takes six iterations, one more than the default budget of dimension three. -/
theorem threshold_winding : winding.threshold = 6 := by
  have hlength : (winding.states 6).length = 6 := by decide +kernel
  rw [Lcp.threshold_eq_of_length_le hlength.le, hlength]
  rfl

/-- A symmetric positive definite problem that the default budget does not allow to solve. -/
theorem solve_winding_failedToConverge :
    winding.m.toMatrix.IsSymm ∧ winding.m.IsPosDef ∧
      ∃ o, ((Solver.new ℚ {}).solve (.ofLcp winding)).1 = .ok o ∧
        o.status = .failedToConverge := by
  have hstatus : ((Solver.new ℚ {}).solve (.ofLcp winding)).1.toOption.map Outcome.status =
      some .failedToConverge := by decide +kernel
  obtain ⟨o, ho, -⟩ := (Solver.new ℚ {}).exists_solve_ofLcp
    ((Solver.new ℚ {}).solveSized_fst winding (by decide) rfl)
  rw [ho] at hstatus
  exact ⟨isSymm_winding, isPosDef_winding, o, ho, Option.some.inj hstatus⟩

/-- **Every greater dimension** has a positive definite problem that takes more iterations than the
default budget allows. -/
theorem exists_isPosDef_lt_threshold (hn : 3 ≤ n) :
    ∃ p : Lcp ℚ n, p.m.toMatrix.IsSymm ∧ p.m.IsPosDef ∧ (n + 2 : ℕ) < p.threshold := by
  induction n, hn using Nat.le_induction with
  | base =>
    refine ⟨winding, isSymm_winding, isPosDef_winding, ?_⟩
    rw [threshold_winding]
    exact Nat.cast_lt.2 (by decide : 5 < 6)
  | succ n hn ih =>
    obtain ⟨p, hsymm, hpos, hlong⟩ := ih
    cases hstart : p.start? with
    | none =>
      rw [Lcp.threshold_of_start_eq_none hstart] at hlong
      exact absurd hlong not_lt_zero
    | some s =>
      obtain ⟨bound, hbound⟩ := (Set.finite_range fun i => -p.q.get i).bddAbove
      have hc : ∀ i, -(max bound 0 + 1) < p.q.get i := by
        intro i
        have hle : -p.q.get i ≤ bound := hbound (Set.mem_range_self i)
        linarith [le_max_left bound 0]
      refine ⟨p.adjoin (max bound 0 + 1), Lcp.isSymm_adjoin hsymm, Lcp.isPosDef_adjoin hpos, ?_⟩
      have hlonger := Lcp.threshold_lt_threshold_adjoin hpos hstart
        (add_pos_of_nonneg_of_pos (le_max_right bound 0) one_pos) hc
      calc ((n + 1 + 2 : ℕ) : ℕ∞)
          = (n + 2 : ℕ) + 1 := by push_cast; ring
        _ ≤ p.threshold := Order.add_one_le_of_lt hlong
        _ < (p.adjoin (max bound 0 + 1)).threshold := hlonger

/-! ## The default budget -/

/-- **The default budget.**  In dimensions one and two a solver without a limit of its own solves
every symmetric positive definite problem.  In every greater dimension there is one for which it
runs out of iterations. -/
theorem Solver.solve_default_budget (s : Solver ℚ) (hs : s.settings.maxIter = none) (hn : 1 ≤ n) :
    (n ≤ 2 → ∀ p : Lcp ℚ n, p.m.toMatrix.IsSymm → p.m.IsPosDef →
      ∃ o, (s.solve (.ofLcp p)).1 = .ok o ∧ o.status.isSolved = true) ∧
    (3 ≤ n → ∃ p : Lcp ℚ n, p.m.toMatrix.IsSymm ∧ p.m.IsPosDef ∧
      ∃ o, (s.solve (.ofLcp p)).1 = .ok o ∧ o.status = .failedToConverge ∧
        o.cost.iterations = n + 2) := by
  have husable : s.settings.isUsable = true := by
    rw [Settings.isUsable, hs, decide_eq_true_iff]
    exact Option.some_ne_none 0 ∘ Eq.symm
  have hbudget : s.settings.budget n = n + 2 := by rw [Settings.budget, hs, Option.getD_none]
  refine ⟨fun hn' p _ hpos => ?_, fun hn' => ?_⟩
  · have hbound : iterationBound n ≤ s.settings.budget n := by
      rw [hbudget]
      obtain rfl | rfl : n = 1 ∨ n = 2 := by omega
      · decide
      · decide
    obtain ⟨o, ho, hstatus, -⟩ := s.exists_solve_ofLcp (s.solveSized_fst p hn husable)
    refine ⟨o, ho, ?_⟩
    rw [hstatus]
    exact p.isSolved_of_ne_noSolution hbound
      (p.status_run_ne_noSolution hpos.noSignReversal.isStrictlySemimonotone _ _ _ _)
  · obtain ⟨p, hsymm, hpos, hlong⟩ := exists_isPosDef_lt_threshold hn'
    rw [← hbudget] at hlong
    have hlength := Lcp.length_states_of_lt_threshold hlong
    obtain ⟨o, ho, hstatus, hcost, -⟩ := s.exists_solve_ofLcp (s.solveSized_fst p hn husable)
    refine ⟨p, hsymm, hpos, o, ho, ?_, ?_⟩
    · rw [hstatus]
      exact (Lcp.run_of_length_eq s.settings _ _ _ hlength).1
    · rw [hcost, (Lcp.cost_run_of_length_eq s.settings _ _ _ hlength).1, hbudget]

/-- Two dimensions, where one solution is found, and three, where the budget is five. -/
theorem solve_default_budget_tied :
    (∃ o, ((Solver.new ℚ {}).solve (.ofLcp tied)).1 = .ok o ∧ o.status.isSolved = true) ∧
      ∃ p : Lcp ℚ 3, p.m.toMatrix.IsSymm ∧ p.m.IsPosDef ∧
        ∃ o, ((Solver.new ℚ {}).solve (.ofLcp p)).1 = .ok o ∧ o.status = .failedToConverge ∧
          o.cost.iterations = 5 := by
  have hsymm : tied.m.toMatrix.IsSymm := by
    refine IsSymm.ext ?_
    show ∀ i j, tied.m.entry j i = tied.m.entry i j
    decide +kernel
  exact ⟨((Solver.new ℚ {}).solve_default_budget rfl (n := 2) (by decide)).1 le_rfl tied hsymm
      isPosDef_tied,
    ((Solver.new ℚ {}).solve_default_budget rfl (n := 3) (by decide)).2 le_rfl⟩

end Complementarity
