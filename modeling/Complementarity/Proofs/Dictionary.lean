import Mathlib.Tactic.Abel
import Complementarity.Proofs.Exchange
import Complementarity.Proofs.Trace

/-!
# Dictionaries of the augmented system

The augmented system of a problem is `w = q + M z + e z_n`, perturbed by a power of an infinitesimal
in each row.  A tableau together with the bookkeeping of its variables is a *dictionary* of this
system if its row equations have the same solutions.  What is proved here, for vectors of any kind
in place of the powers:

* **every tableau of a run is a dictionary** — `isDictionary_initial` and `IsDictionary.pivot`;
* **solutions are determined by the nonbasic variables** — `IsDictionary.eq_of_column`: on an
  edge, where one nonbasic variable may vary, the basic ones are read off a column;
* **the polynomials of the rows are independent** — `IsDictionary.exists_valueAt`: the
  perturbation can give the basic variables any values, so no polynomial of a row is a multiple
  of that of another one (`IsDictionary.smul_value_ne`).
-/

namespace Complementarity

open Tableau Variable

variable {n : Nat}

/-- The perturbed augmented system, with the vectors `g` for the powers of the infinitesimal: the
constant of row `i` is `q_i g_0 + g_{i+1}`. -/
structure Lcp.Augmented {V : Type} [AddCommGroup V] [Module ℚ V] (p : Lcp ℚ n) (g : Fin (n + 1) → V)
    (x : Variable n → V) : Prop where
  row : ∀ i : Fin n, x (.w i.castSucc) =
    p.q.get i • g 0 + g i.succ + ∑ j : Fin n, p.m.entry i j • x (.z j.castSucc) + x (artificial n)

/-- Where all `z_j` are zero, a slack variable is the constant of its row plus the artificial
variable. -/
theorem Lcp.Augmented.slack_eq {V : Type} [AddCommGroup V] [Module ℚ V] {p : Lcp ℚ n}
    {g : Fin (n + 1) → V} {x : Variable n → V} (h : p.Augmented g x)
    (hz : ∀ j : Fin n, x (.z j.castSucc) = 0) (i : Fin n) :
    x (.w i.castSucc) = p.q.get i • g 0 + g i.succ + x (artificial n) := by
  rw [h.row i, Finset.sum_eq_zero fun j _ => by rw [hz j, smul_zero], add_zero]

/-- A linear map takes solutions to solutions of the system with the images of the vectors. -/
theorem Lcp.Augmented.map {V W : Type} [AddCommGroup V] [Module ℚ V] [AddCommGroup W] [Module ℚ W]
    {p : Lcp ℚ n} {g : Fin (n + 1) → V} {x : Variable n → V} (h : p.Augmented g x)
    (f : V →ₗ[ℚ] W) : p.Augmented (f ∘ g) (f ∘ x) := by
  refine ⟨fun i => ?_⟩
  rw [Function.comp_apply, h.row i]
  simp only [map_add, map_smul, map_sum, Function.comp_apply]

/-- The row equations of a tableau, read with the bookkeeping of a basis, have the same solutions
as the augmented system. -/
def Lcp.IsDictionary (p : Lcp ℚ n) (t : Tableau ℚ n) (b : Basis n) : Prop :=
  ∀ (V : Type) [AddCommGroup V] [Module ℚ V] (g : Fin (n + 1) → V) (x : Variable n → V),
    t.Satisfied g (x ∘ b.inRow) (x ∘ b.inColumn) ↔ p.Augmented g x

/-- The perturbed constant of a row. -/
def Tableau.value (t : Tableau ℚ n) (r : Fin n) : Perturbed n :=
  toLex fun k => t.entry r (polynomialColumn k)

theorem Tableau.value_eq_valueAt (t : Tableau ℚ n) (r : Fin n) :
    t.value r = t.valueAt Perturbed.power r :=
  (Perturbed.sum_smul_power _).symm

/-- The perturbed constant of a row after a pivot. -/
theorem Tableau.value_pivot (t : Tableau ℚ n) (b r : Fin n) (d : Fin (n + 1)) :
    (t.pivot b (coefficientColumn d)).value r =
      if r = b then -(t.coefficient b d)⁻¹ • t.value b
      else t.value r - (t.coefficient r d * (t.coefficient b d)⁻¹) • t.value b := by
  simp only [value_eq_valueAt, valueAt_pivot]

/-! ## The loaded tableau -/

section Loaded

variable (p : Lcp ℚ n)

theorem Lcp.coefficient_loaded_castSucc (r j : Fin n) :
    p.loaded.coefficient r j.castSucc = p.m.entry r j := by
  rw [coefficient, loaded, entry_withMatrix]
  exact dif_pos j.isLt

theorem Lcp.coefficient_loaded_last (r : Fin n) : p.loaded.coefficient r (Fin.last n) = 1 := by
  rw [coefficient, loaded, entry_withMatrix, dif_neg (by simp [coefficientColumn])]
  exact if_pos rfl

theorem Lcp.entry_loaded_polynomialColumn (r : Fin n) (k : Fin (n + 1)) :
    p.loaded.entry r (polynomialColumn k) =
      if k = 0 then p.q.get r else if k = r.succ then 1 else 0 :=
  p.entry_loaded r k

theorem Lcp.valueAt_loaded {V : Type} [AddCommGroup V] [Module ℚ V] (g : Fin (n + 1) → V)
    (r : Fin n) : p.loaded.valueAt g r = p.q.get r • g 0 + g r.succ := by
  rw [valueAt, Fin.sum_univ_succ]
  simp only [entry_loaded_polynomialColumn, if_true, Fin.succ_ne_zero, if_false, Fin.succ_inj,
    ite_smul, one_smul, zero_smul, Finset.sum_ite_eq', Finset.mem_univ]

theorem Lcp.value_loaded (r : Fin n) :
    p.loaded.value r = p.q.get r • Perturbed.power 0 + Perturbed.power r.succ := by
  rw [value_eq_valueAt, valueAt_loaded]

/-- Without the perturbation the constants are those of the problem. -/
theorem Lcp.constant_value_loaded (r : Fin n) : ofLex (p.loaded.value r) 0 = p.q.get r := by
  rw [value, ofLex_toLex, entry_loaded_polynomialColumn, if_pos rfl]

/-- The first tableau is a dictionary. -/
theorem Lcp.isDictionary_initial : p.IsDictionary p.loaded (Basis.initial n) := by
  intro V _ _ g x
  refine Iff.trans (forall_congr' fun r => ?_) ⟨Augmented.mk, Augmented.row⟩
  simp only [Function.comp_apply, Basis.inRow_initial, Basis.inColumn_initial]
  rw [Fin.sum_univ_castSucc, valueAt_loaded, coefficient_loaded_last, one_smul, ← add_assoc]
  simp only [coefficient_loaded_castSucc, artificial]

end Loaded

/-! ## Assignments along a column -/

namespace Basis

variable {V : Type} [Zero V] {b : Basis n} {left : Fin (n + 1)}

/-- The assignment that gives the row variables the values `y`, the variable of column `c` the
value `v` and all others the value zero. -/
noncomputable def along (b : Basis n) (y : Fin n → V) (c : Fin (n + 1)) (v : V) : Variable n → V :=
  Function.extend b.inRow y (Pi.single (b.inColumn c) v)

theorem along_inRow (hb : b.Arranged left) (y : Fin n → V) (c : Fin (n + 1)) (v : V) (r : Fin n) :
    b.along y c v (b.inRow r) = y r :=
  hb.inRow_injective.extend_apply _ _ r

theorem along_of_notMem (y : Fin n → V) (c : Fin (n + 1)) (v : V) {u : Variable n}
    (hu : u ∉ b.basicSet) : b.along y c v u = (Pi.single (b.inColumn c) v : Variable n → V) u :=
  Function.extend_apply' _ _ _ fun ⟨r, hr⟩ => hu (mem_basicSet.2 ⟨r, hr⟩)

theorem along_inColumn (hb : b.Arranged left) (y : Fin n → V) (c : Fin (n + 1)) (v : V) :
    b.along y c v (b.inColumn c) = v := by
  rw [along_of_notMem y c v (hb.inColumn_notMem_basicSet c), Pi.single_eq_same]

theorem along_of_ne (y : Fin n → V) (c : Fin (n + 1)) (v : V) {u : Variable n}
    (hu : u ∉ b.basicSet) (hne : u ≠ b.inColumn c) : b.along y c v u = 0 := by
  rw [along_of_notMem y c v hu, Pi.single_eq_of_ne hne]

theorem along_zero_of_notMem (y : Fin n → V) (c : Fin (n + 1)) {u : Variable n}
    (hu : u ∉ b.basicSet) : b.along y c 0 u = 0 := by
  rw [along_of_notMem y c 0 hu, Pi.single_zero, Pi.zero_apply]

/-- What holds of the values of the rows and of zero holds of every value of an assignment that is
zero off the rows. -/
theorem forall_along {P : V → Prop} (hb : b.Arranged left) {y : Fin n → V} (hy : ∀ r, P (y r))
    (hzero : P 0) (c : Fin (n + 1)) (u : Variable n) : P (b.along y c 0 u) := by
  by_cases hu : u ∈ b.basicSet
  · obtain ⟨r, rfl⟩ := mem_basicSet.1 hu
    rw [along_inRow hb]
    exact hy r
  · rw [along_zero_of_notMem y c hu]
    exact hzero

/-- Such an assignment gives one of any two partners the value zero. -/
theorem along_eq_zero_or (hb : b.Arranged left) (y : Fin n → V) (c : Fin (n + 1))
    (u : Variable n) : b.along y c 0 u = 0 ∨ b.along y c 0 u.partner = 0 := by
  by_cases hu : u ∈ b.basicSet
  · exact Or.inr (along_zero_of_notMem y c (hb.partner_notMem_basicSet hu))
  · exact Or.inl (along_zero_of_notMem y c hu)

/-- A function that keeps zero goes along with an assignment that is zero off the rows. -/
theorem map_along {W F : Type} [Zero W] [FunLike F V W] [ZeroHomClass F V W] (f : F)
    (hb : b.Arranged left) (y : Fin n → V) (c : Fin (n + 1)) (u : Variable n) :
    f (b.along y c 0 u) = b.along (fun r => f (y r)) c 0 u := by
  by_cases hu : u ∈ b.basicSet
  · obtain ⟨r, rfl⟩ := mem_basicSet.1 hu
    rw [along_inRow hb, along_inRow hb]
  · rw [along_zero_of_notMem _ _ hu, along_zero_of_notMem _ _ hu, map_zero]

end Basis

/-! ## Dictionaries -/

namespace Lcp.IsDictionary

variable {p : Lcp ℚ n} {t : Tableau ℚ n} {b : Basis n} {left : Fin (n + 1)}

/-- **A pivot leads to a dictionary**, if the bookkeeping follows. -/
theorem pivot (h : p.IsDictionary t b) {r : Fin n} {c : Fin (n + 1)}
    (hpivot : t.coefficient r c ≠ 0) :
    p.IsDictionary (t.pivot r (coefficientColumn c)) (b.exchange r c).1 := by
  intro V _ _ g x
  have hrow : x ∘ (b.exchange r c).1.inRow =
      Function.update (x ∘ b.inRow) r ((x ∘ b.inColumn) c) := by
    funext r'
    rw [Function.comp_apply, Basis.inRow_exchange, Function.update_apply]
    by_cases hr : r = r'
    · rw [if_pos hr, if_pos hr.symm]
      rfl
    · rw [if_neg hr, if_neg (Ne.symm hr)]
      rfl
  have hcolumn : x ∘ (b.exchange r c).1.inColumn =
      Function.update (x ∘ b.inColumn) c ((x ∘ b.inRow) r) := by
    funext c'
    rw [Function.comp_apply, Basis.inColumn_exchange, Function.update_apply]
    by_cases hc : c = c'
    · rw [if_pos hc, if_pos hc.symm]
      rfl
    · rw [if_neg hc, if_neg (Ne.symm hc)]
      rfl
  rw [hrow, hcolumn, satisfied_pivot t g _ _ r c hpivot]
  exact h V g x

/-- The first pivot leads to a dictionary as well. -/
theorem enterArtificial (row : Fin n) :
    p.IsDictionary (p.loaded.enterArtificial row)
      ((Basis.initial n).exchange row (Fin.last n)).1 := by
  have hone : ∀ r, p.loaded.entry r artificialColumn = 1 := p.coefficient_loaded_last
  rw [enterArtificial_eq_pivot _ _ hone]
  refine p.isDictionary_initial.pivot ?_
  rw [p.coefficient_loaded_last]
  exact one_ne_zero

section Solutions

variable {V : Type} [AddCommGroup V] [Module ℚ V]

/-- **An edge.**  Where the nonbasic variables are zero but for that of one column, the basic ones
are read off that column. -/
theorem eq_of_column (h : p.IsDictionary t b) {g : Fin (n + 1) → V} {x : Variable n → V}
    (hx : p.Augmented g x) (c : Fin (n + 1)) (hzero : ∀ c', c' ≠ c → x (b.inColumn c') = 0)
    (r : Fin n) : x (b.inRow r) = t.valueAt g r + t.coefficient r c • x (b.inColumn c) := by
  have hrow := (h V g x).2 hx r
  rw [Function.comp_apply] at hrow
  rw [hrow]
  congr 1
  refine Finset.sum_eq_single c (fun c' _ hc' => ?_) fun hc => absurd (Finset.mem_univ c) hc
  rw [Function.comp_apply, hzero c' hc', smul_zero]

/-- What a column says about the row variables gives a solution. -/
theorem augmented_along (h : p.IsDictionary t b) (hb : b.Arranged left) (g : Fin (n + 1) → V)
    (c : Fin (n + 1)) (v : V) :
    p.Augmented g (b.along (fun r => t.valueAt g r + t.coefficient r c • v) c v) := by
  refine (h V g _).1 fun r => ?_
  simp only [Function.comp_apply, Basis.along_inRow hb]
  congr 1
  rw [Finset.sum_eq_single c]
  · rw [Basis.along_inColumn hb]
  · intro c' _ hc'
    rw [Basis.along_of_ne _ _ _ (hb.inColumn_notMem_basicSet c')
      fun heq => hc' (hb.inColumn_injective heq), smul_zero]
  · intro hc
    exact absurd (Finset.mem_univ c) hc

/-- **Independence.**  A suitable perturbation gives the basic variables any values. -/
theorem exists_valueAt (h : p.IsDictionary t b) (hb : b.Arranged left) (y : Fin n → V) :
    ∃ g, ∀ r, t.valueAt g r = y r := by
  let x : Variable n → V := b.along y 0 0
  let g : Fin (n + 1) → V := Fin.cases 0 fun i =>
    x (.w i.castSucc) - (∑ j : Fin n, p.m.entry i j • x (.z j.castSucc) + x (artificial n))
  have hx : p.Augmented g x := by
    refine ⟨fun i => ?_⟩
    simp only [g, Fin.cases_zero, Fin.cases_succ, smul_zero]
    abel
  refine ⟨g, fun r => ?_⟩
  have hzero : ∀ c, x (b.inColumn c) = 0 := fun c =>
    Basis.along_zero_of_notMem y 0 (hb.inColumn_notMem_basicSet c)
  have hrow := h.eq_of_column hx 0 (fun c _ => hzero c) r
  rw [hzero, smul_zero, add_zero] at hrow
  exact hrow.symm.trans (Basis.along_inRow hb y 0 0 r)

end Solutions

/-- **No ties.**  A multiple of the polynomial of a row is no multiple of that of another row. -/
theorem smul_value_ne (h : p.IsDictionary t b) (hb : b.Arranged left) {r r' : Fin n} (hr : r ≠ r')
    {a : ℚ} (ha : a ≠ 0) (a' : ℚ) : a • t.value r ≠ a' • t.value r' := by
  intro heq
  obtain ⟨g, hg⟩ := h.exists_valueAt hb (Pi.single r (1 : ℚ))
  have hsum : ∀ (c : ℚ) (r : Fin n), c * t.valueAt g r =
      ∑ k, (c • t.value r : Fin (n + 1) → ℚ) k * g k := by
    intro c r
    rw [valueAt, Finset.mul_sum]
    refine Finset.sum_congr rfl fun k _ => ?_
    exact (mul_assoc c _ _).symm
  have hone : a * t.valueAt g r = a' * t.valueAt g r' := by
    rw [hsum, hsum]
    exact Finset.sum_congr rfl fun k _ => congrArg (fun x : Perturbed n => ofLex x k * g k) heq
  rw [hg, hg, Pi.single_eq_same, Pi.single_eq_of_ne hr.symm, mul_one, mul_zero] at hone
  exact ha hone

end Lcp.IsDictionary

end Complementarity
