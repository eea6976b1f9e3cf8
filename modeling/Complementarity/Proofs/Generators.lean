import Mathlib.LinearAlgebra.Matrix.DotProduct
import Mathlib.Tactic.Linarith
import Complementarity.Benchmark.Generated
import Complementarity.Proofs.IntegerData
import Complementarity.Proofs.MatrixClasses

/-!
# Generated problems

What the generators yield, for every source of random words.  `Family.Member` lists the problems
that a family consists of, and what is drawn is a member:

* **drawing** — `between_spec`, `randomVector_spec`, `randomMatrix_spec`: a number that is drawn is
  in its interval;
* **families** — `Family.instances_spec`: a family has its number of problems, all of them members;
* **sizes** — `Family.Member.height_le`: the numbers in the data of a member are at most
  `16 n + 3`;
* **definiteness** — `isPosDef_shifted_gram`: a Gram matrix with something added to its diagonal is
  positive definite.
-/

namespace Complementarity.Benchmark

open Std.Do

set_option mvcgen.warning false

/-! ## Loops -/

section Loops

variable {m : Type → Type} {ps : PostShape.{0}} [Monad m] [WPMonad m ps] {α β : Type}

/-- What holds of every entry that is computed holds of the entries of the vector. -/
theorem ofFnM_spec {n : Nat} {f : Fin n → m α} {P : Fin n → α → Prop}
    (h : ∀ i, ⦃⌜True⌝⦄ f i ⦃⇓ a => ⌜P i a⌝⦄) :
    ⦃⌜True⌝⦄ Vector.ofFnM f ⦃⇓ v => ⌜∀ i, P i (v.get i)⌝⦄ := by
  induction n with
  | zero =>
    rw [Vector.ofFnM_zero]
    mvcgen
    mpure_intro
    intro i
    exact i.elim0
  | succ n ih =>
    have hinit := ih fun i => h i.castSucc
    have hlast := h (Fin.last n)
    rw [Vector.ofFnM_succ]
    mvcgen [hinit, hlast]
    rename_i init hinit a hlast
    mpure_intro
    intro i
    refine Fin.lastCases ?_ (fun j => ?_) i
    · have hget : (init.push a).get (Fin.last n) = a := Vector.getElem_push_eq
      rw [hget]
      exact hlast
    · have hget : (init.push a).get j.castSucc = init.get j := Vector.getElem_push_lt j.isLt
      rw [hget]
      exact hinit j

theorem mapM_spec {f : β → m α} {P : α → Prop} (h : ∀ b, ⦃⌜True⌝⦄ f b ⦃⇓ a => ⌜P a⌝⦄)
    (l : List β) :
    ⦃⌜True⌝⦄ l.mapM f ⦃⇓ as => ⌜as.length = l.length ∧ ∀ a ∈ as, P a⌝⦄ := by
  induction l with
  | nil =>
    rw [List.mapM_nil]
    mvcgen
    mpure_intro
    simp
  | cons b l ih =>
    have hb := h b
    rw [List.mapM_cons]
    mvcgen [hb, ih]
    rename_i a ha as has
    mpure_intro
    simp only [List.length_cons, List.forall_mem_cons]
    exact ⟨congrArg Nat.succ has.1, ha, has.2⟩

end Loops

/-! ## The members of a family -/

/-- The problems that a family consists of, as they are generated in dimension `n`. -/
inductive Family.Member (n : Nat) : Family → Generated → Prop
  | positiveDefinite (number : Nat) (a : Dense ℤ n n) (d : ℤ) (q : Vector ℤ n)
      (ha : ∀ i j, (a.entry i j).natAbs ≤ 4) (hd : 1 ≤ d ∧ d ≤ 3)
      (hq : ∀ i, (q.get i).natAbs ≤ 10) :
      Member n .positiveDefinite (.numbered ⟨s!"pd{n}", n, ⟨q, shifted (gram a) d⟩⟩ number)
  | positiveSemidefinite (number rank : Nat) (b : Dense ℤ n rank) (q : Vector ℤ n)
      (hrank : 1 ≤ rank ∧ rank ≤ max n 1) (hb : ∀ i j, (b.entry i j).natAbs ≤ 3)
      (hq : ∀ i, (q.get i).natAbs ≤ 10) :
      Member n .positiveSemidefinite (.numbered ⟨s!"psd{n}r{rank}", n, ⟨q, gram b⟩⟩ number)
  | murty (k : Nat) (hk : k < n) : Member n .murty (Benchmark.murty (k + 1))
  | random (number : Nat) (m : Dense ℤ n n) (q : Vector ℤ n)
      (hm : ∀ i j, (m.entry i j).natAbs ≤ 5) (hq : ∀ i, (q.get i).natAbs ≤ 10) :
      Member n .random (.numbered ⟨s!"rand{n}", n, ⟨q, m⟩⟩ number)

/-- The number of problems of a family. -/
def Family.size (family : Family) (dim count : Nat) : Nat :=
  match family with
  | .murty => dim
  | _ => count

/-! ## Drawing -/

section Draws

variable (σ : Type) [Random.Source σ]

theorem between_spec {low high : ℤ} (h : low ≤ high) :
    ⦃⌜True⌝⦄ (Random.between low high : StateM σ ℤ) ⦃⇓ v => ⌜low ≤ v ∧ v ≤ high⌝⦄ := by
  intro source _
  have hrange : 0 < (high - low + 1).toNat := by omega
  have hlt := Random.below_lt hrange Random.attempts source
  show low ≤ low + ((Random.below (high - low + 1).toNat Random.attempts source).1 : ℤ) ∧
    low + ((Random.below (high - low + 1).toNat Random.attempts source).1 : ℤ) ≤ high
  omega

theorem randomVector_spec (n : Nat) {low high : ℤ} {c : ℕ} (h : low ≤ high)
    (hc : -c ≤ low ∧ high ≤ c) :
    ⦃⌜True⌝⦄ (randomVector n low high : StateM σ (Vector ℤ n))
    ⦃⇓ v => ⌜∀ i, (v.get i).natAbs ≤ c⌝⦄ := by
  have hentry : ∀ _ : Fin n, ⦃⌜True⌝⦄ (Random.between low high : StateM σ ℤ)
      ⦃⇓ v => ⌜v.natAbs ≤ c⌝⦄ := by
    intro _
    have hbetween := between_spec σ h
    mvcgen [hbetween]
    omega
  exact ofFnM_spec hentry

theorem randomMatrix_spec (rows cols : Nat) {low high : ℤ} {c : ℕ} (h : low ≤ high)
    (hc : -c ≤ low ∧ high ≤ c) :
    ⦃⌜True⌝⦄ (randomMatrix rows cols low high : StateM σ (Dense ℤ rows cols))
    ⦃⇓ b => ⌜∀ i j, (b.entry i j).natAbs ≤ c⌝⦄ := by
  have hcolumns := ofFnM_spec fun _ : Fin cols => randomVector_spec σ rows h hc
  unfold randomMatrix
  mvcgen [hcolumns]
  rename_i columns hcolumns
  intro i j
  rw [Dense.entry_ofFn]
  exact hcolumns j i

theorem randomConstants_spec (n : Nat) :
    ⦃⌜True⌝⦄ (randomConstants n : StateM σ (Vector ℤ n))
    ⦃⇓ v => ⌜∀ i, (v.get i).natAbs ≤ 10⌝⦄ :=
  randomVector_spec σ n (by decide) (by decide)

theorem positiveDefinite_spec (n : Nat) :
    ⦃⌜True⌝⦄ (positiveDefinite n : StateM σ Generated)
    ⦃⇓ g => ⌜∀ number, Family.Member n .positiveDefinite (g.numbered number)⌝⦄ := by
  have hmatrix : ⦃⌜True⌝⦄ (randomMatrix n n (-4) 4 : StateM σ _)
      ⦃⇓ a => ⌜∀ i j, (a.entry i j).natAbs ≤ 4⌝⦄ := randomMatrix_spec σ n n (by decide) (by decide)
  have hshift : ⦃⌜True⌝⦄ (Random.between 1 3 : StateM σ ℤ) ⦃⇓ d => ⌜1 ≤ d ∧ d ≤ 3⌝⦄ :=
    between_spec σ (by decide)
  have hconstants := randomConstants_spec σ n
  unfold positiveDefinite
  mvcgen [hmatrix, hshift, hconstants]
  rename_i _ a _ ha d _ hd q _ hq
  intro number
  exact .positiveDefinite number a d q ha hd hq

theorem positiveSemidefinite_spec (n : Nat) :
    ⦃⌜True⌝⦄ (positiveSemidefinite n : StateM σ Generated)
    ⦃⇓ g => ⌜∀ number, Family.Member n .positiveSemidefinite (g.numbered number)⌝⦄ := by
  have hrank : ⦃⌜True⌝⦄ (Random.between 1 (max n 1 : Nat) : StateM σ ℤ)
      ⦃⇓ rank => ⌜1 ≤ rank ∧ rank ≤ (max n 1 : Nat)⌝⦄ := between_spec σ (by omega)
  have hmatrix : ∀ rank : Nat, ⦃⌜True⌝⦄ (randomMatrix n rank (-3) 3 : StateM σ _)
      ⦃⇓ b => ⌜∀ i j, (b.entry i j).natAbs ≤ 3⌝⦄ :=
    fun rank => randomMatrix_spec σ n rank (by decide) (by decide)
  have hconstants := randomConstants_spec σ n
  unfold positiveSemidefinite
  mvcgen [hrank, hmatrix, hconstants]
  rename_i r rank _ hr b _ hb q _ hq
  have hrank : 1 ≤ rank ∧ rank ≤ max n 1 := by
    show 1 ≤ r.toNat ∧ r.toNat ≤ max n 1
    omega
  intro number
  exact .positiveSemidefinite number rank b q hrank hb hq

theorem random_spec (n : Nat) :
    ⦃⌜True⌝⦄ (random n : StateM σ Generated)
    ⦃⇓ g => ⌜∀ number, Family.Member n .random (g.numbered number)⌝⦄ := by
  have hmatrix : ⦃⌜True⌝⦄ (randomMatrix n n (-5) 5 : StateM σ _)
      ⦃⇓ m => ⌜∀ i j, (m.entry i j).natAbs ≤ 5⌝⦄ := randomMatrix_spec σ n n (by decide) (by decide)
  have hconstants := randomConstants_spec σ n
  unfold random
  mvcgen [hmatrix, hconstants]
  rename_i _ m _ hm q _ hq
  intro number
  exact .random number m q hm hq

omit [Random.Source σ] in
variable {σ} in
theorem copies_spec {draw : StateM σ Generated} {P : Generated → Prop}
    (h : ⦃⌜True⌝⦄ draw ⦃⇓ g => ⌜∀ number, P (g.numbered number)⌝⦄) (count : Nat) :
    ⦃⌜True⌝⦄ copies count draw ⦃⇓ problems => ⌜problems.length = count ∧ ∀ g ∈ problems, P g⌝⦄ := by
  have hcopy : ∀ number : Nat, ⦃⌜True⌝⦄ (do return (← draw).numbered number : StateM σ Generated)
      ⦃⇓ g => ⌜P g⌝⦄ := by
    intro number
    mvcgen [h]
    rename_i hg
    exact hg number
  have hall := mapM_spec hcopy (List.range count)
  rw [List.length_range] at hall
  exact hall

/-- **What is generated.**  Whatever the source yields, a family has its number of problems, and all
of them are members. -/
theorem Family.instances_spec (family : Family) (dim count : Nat) :
    ⦃⌜True⌝⦄ (family.instances dim count : StateM σ (List Generated))
    ⦃⇓ problems => ⌜problems.length = family.size dim count ∧
      ∀ g ∈ problems, family.Member dim g⌝⦄ := by
  unfold Family.instances
  cases family with
  | positiveDefinite => exact copies_spec (positiveDefinite_spec σ dim) count
  | positiveSemidefinite => exact copies_spec (positiveSemidefinite_spec σ dim) count
  | random => exact copies_spec (random_spec σ dim) count
  | murty =>
    mvcgen
    refine ⟨by simp [Family.size], ?_⟩
    intro g hg
    obtain ⟨k, hk, rfl⟩ := List.mem_map.1 hg
    exact .murty k (List.mem_range.1 hk)

variable {σ} in
theorem Family.of_run_instances {family : Family} {dim count : Nat} {source next : σ}
    {problems : List Generated}
    (h : (family.instances dim count).run source = (problems, next)) :
    problems.length = family.size dim count ∧ ∀ g ∈ problems, family.Member dim g := by
  obtain rfl : ((family.instances dim count).run source).1 = problems := congrArg Prod.fst h
  exact Family.instances_spec σ family dim count source trivial

end Draws

/-! ## Sizes -/

theorem entry_gram {n k : Nat} (b : Dense ℤ n k) (i j : Fin n) :
    (gram b).entry i j = ∑ l, b.entry i l * b.entry j l := by
  rw [gram, Dense.entry_ofFn, Fin.sum_univ_def, List.sum_eq_foldl, List.foldl_map]

theorem natAbs_entry_gram_le {n k c : Nat} {b : Dense ℤ n k}
    (hb : ∀ i l, (b.entry i l).natAbs ≤ c) (i j : Fin n) :
    ((gram b).entry i j).natAbs ≤ k * (c * c) := by
  rw [entry_gram]
  calc (∑ l, b.entry i l * b.entry j l).natAbs
      ≤ ∑ l, (b.entry i l * b.entry j l).natAbs := Int.natAbs_sum_le _ _
    _ ≤ ∑ _l : Fin k, c * c := by
        refine Finset.sum_le_sum fun l _ => ?_
        rw [Int.natAbs_mul]
        exact Nat.mul_le_mul (hb i l) (hb j l)
    _ = k * (c * c) := by rw [Finset.sum_const, Finset.card_fin, smul_eq_mul]

theorem natAbs_entry_shifted_le {n : Nat} (m : Dense ℤ n n) (d : ℤ) (i j : Fin n) :
    ((shifted m d).entry i j).natAbs ≤ (m.entry i j).natAbs + d.natAbs := by
  rw [shifted, Dense.entry_ofFn]
  split <;> omega

/-- The entries of a definite matrix: those of the Gram matrix and the number on the diagonal. -/
theorem natAbs_entry_shifted_gram_le {n : Nat} {a : Dense ℤ n n} {d : ℤ}
    (ha : ∀ i l, (a.entry i l).natAbs ≤ 4) (hd : 1 ≤ d ∧ d ≤ 3) (i j : Fin n) :
    ((shifted (gram a) d).entry i j).natAbs ≤ 16 * n + 3 := by
  have hgram := natAbs_entry_gram_le ha i j
  have hshifted := natAbs_entry_shifted_le (gram a) d i j
  omega

theorem natAbs_entry_murtyMatrix_le {n : Nat} (i j : Fin n) :
    ((murtyMatrix n).entry i j).natAbs ≤ 2 := by
  rw [murtyMatrix, Dense.entry_ofFn]
  split
  · exact le_rfl
  · split <;> decide

namespace Family.Member

variable {n : Nat} {family : Family} {g : Generated}

theorem dim_pos (h : family.Member n g) (hn : 0 < n) : 0 < g.dim := by
  cases h with
  | murty k hk => exact k.succ_pos
  | positiveDefinite | positiveSemidefinite | random => exact hn

/-- The numbers in the data grow with the dimension at most. -/
theorem height_le (h : family.Member n g) (hn : 0 < n) : g.data.height ≤ 16 * n + 3 := by
  cases h with
  | positiveDefinite number a d q ha hd hq =>
    exact Lcp.height_le_of_forall (by omega) (fun i => (hq i).trans (by omega))
      (natAbs_entry_shifted_gram_le ha hd)
  | positiveSemidefinite number rank b q hrank hb hq =>
    refine Lcp.height_le_of_forall (by omega) (fun i => (hq i).trans (by omega)) fun i j => ?_
    have hgram := natAbs_entry_gram_le hb i j
    show ((gram b).entry i j).natAbs ≤ _
    omega
  | murty k hk =>
    refine Lcp.height_le_of_forall (by omega) (fun i => ?_) fun i j => ?_
    · have hentry : (Benchmark.murty (k + 1)).data.q.get i = -1 :=
        Vector.getElem_replicate i.isLt
      rw [hentry]
      omega
    · exact (natAbs_entry_murtyMatrix_le i j).trans (by omega)
  | random number m q hm hq =>
    exact Lcp.height_le_of_forall (by omega) (fun i => (hq i).trans (by omega))
      fun i j => (hm i j).trans (by omega)

end Family.Member

/-! ## Definite matrices -/

open Matrix

/-- The matrix with these integers as rational numbers. -/
def ratMatrix {n k : Nat} (b : Dense ℤ n k) : Matrix (Fin n) (Fin k) ℚ :=
  Matrix.of fun i l => (b.entry i l : ℚ)

theorem toMatrix_gram {n k : Nat} (b : Dense ℤ n k) :
    ((gram b).map fun x : ℤ => (x : ℚ)).toMatrix = ratMatrix b * (ratMatrix b)ᵀ := by
  ext i j
  rw [Dense.toMatrix, of_apply, Dense.entry_map, entry_gram, mul_apply]
  push_cast
  rfl

theorem toMatrix_shifted {n : Nat} (m : Dense ℤ n n) (d : ℤ) :
    ((shifted m d).map fun x : ℤ => (x : ℚ)).toMatrix =
      (m.map fun x : ℤ => (x : ℚ)).toMatrix + (d : ℚ) • 1 := by
  ext i j
  rw [Dense.toMatrix, of_apply, Dense.entry_map, shifted, Dense.entry_ofFn, Matrix.add_apply,
    Matrix.smul_apply, one_apply, Dense.toMatrix, of_apply, Dense.entry_map]
  push_cast
  by_cases hij : i = j
  · simp [hij]
  · simp [hij]

/-- The form of a Gram matrix is a sum of squares. -/
theorem form_gram {n k : Nat} (b : Dense ℤ n k) (x : Fin n → ℚ) :
    x ⬝ᵥ ((gram b).map fun x : ℤ => (x : ℚ)).toMatrix *ᵥ x =
      ((ratMatrix b)ᵀ *ᵥ x) ⬝ᵥ ((ratMatrix b)ᵀ *ᵥ x) := by
  rw [toMatrix_gram, ← mulVec_mulVec, dotProduct_mulVec, ← mulVec_transpose]

/-- The form of a Gram matrix is not negative. -/
theorem isPosSemidef_gram {n k : Nat} (b : Dense ℤ n k) :
    ((gram b).map fun x : ℤ => (x : ℚ)).IsPosSemidef := by
  intro x
  rw [form_gram]
  exact Finset.sum_nonneg fun i _ => mul_self_nonneg _

/-- What is added to the diagonal is added to the form. -/
theorem form_shifted_gram_ge {n k : Nat} (b : Dense ℤ n k) (d : ℤ) (x : Fin n → ℚ) :
    (d : ℚ) * (x ⬝ᵥ x) ≤ x ⬝ᵥ ((shifted (gram b) d).map fun x : ℤ => (x : ℚ)).toMatrix *ᵥ x := by
  rw [toMatrix_shifted, add_mulVec, dotProduct_add, smul_mulVec, one_mulVec, dotProduct_smul,
    smul_eq_mul]
  exact le_add_of_nonneg_left (isPosSemidef_gram b x)

/-- **Definiteness.**  Something added to the diagonal of a Gram matrix makes it definite. -/
theorem isPosDef_shifted_gram {n k : Nat} (b : Dense ℤ n k) {d : ℤ} (hd : 1 ≤ d) :
    ((shifted (gram b) d).map fun x : ℤ => (x : ℚ)).IsPosDef := by
  intro x hx
  have hsquares : 0 ≤ x ⬝ᵥ x := Finset.sum_nonneg fun i _ => mul_self_nonneg (x i)
  have hpos : 0 < x ⬝ᵥ x :=
    lt_of_le_of_ne hsquares fun h => hx (dotProduct_self_eq_zero.1 h.symm)
  have hd' : (0 : ℚ) < d := by exact_mod_cast (by omega : 0 < d)
  exact (mul_pos hd' hpos).trans_le (form_shifted_gram_ge b d x)

theorem Family.Member.isPosDef {n : Nat} {g : Generated}
    (h : Family.Member n .positiveDefinite g) : g.dim = n ∧ g.data.toRat.m.IsPosDef := by
  cases h with
  | positiveDefinite number a d q ha hd hq => exact ⟨rfl, isPosDef_shifted_gram a hd.1⟩

end Complementarity.Benchmark
