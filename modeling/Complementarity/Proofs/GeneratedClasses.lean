import Mathlib.Algebra.BigOperators.Fin
import Mathlib.LinearAlgebra.Matrix.Rank
import Complementarity.Proofs.Generators
import Complementarity.Proofs.Loops
import Complementarity.Random.ChaCha

/-!
# The classes of generated problems

The random families with symmetric matrices belong to the classes that their names promise, and
their matrices are computed without overflow.  Whatever the source of random words yields:

* **definiteness** — `isDefinite_positiveDefinite`: the form of a matrix of the first family is at
  least one, two or three times the form of the identity;
* **semidefiniteness** — `isSemidefinite_positiveSemidefinite`: the form of a matrix of the second
  family is not negative, and its rank is at most the one in the label;
* **64-bit arithmetic** — `innerProduct64_eq`: an inner product of short numbers fits, in whatever
  order its terms are added, so a generator that checks every product and every sum yields what the
  generator yields (`Fits`, `generators_fit`).
-/

namespace Complementarity.Benchmark

open Matrix Std.Do

/-! ## Classes -/

/-- A problem of dimension `n` with a symmetric matrix whose form is at least a multiple of that of
the identity. -/
structure Generated.IsDefinite (n : ℕ) (g : Generated) : Prop where
  dim_eq : g.dim = n
  symmetric : ∀ i j, g.data.m.entry i j = g.data.m.entry j i
  form_ge : ∃ d : ℤ, (1 ≤ d ∧ d ≤ 3) ∧
    ∀ x, (d : ℚ) * (x ⬝ᵥ x) ≤ x ⬝ᵥ g.data.toRat.m.toMatrix *ᵥ x
  natAbs_entry_le : ∀ i j, (g.data.m.entry i j).natAbs ≤ 16 * n + 3

/-- A problem of dimension `n` with a symmetric semidefinite matrix of rank at most `r`. -/
structure Generated.IsSemidefinite (n r : ℕ) (g : Generated) : Prop where
  dim_eq : g.dim = n
  symmetric : ∀ i j, g.data.m.entry i j = g.data.m.entry j i
  form_nonneg : g.data.toRat.m.IsPosSemidef
  rank_le : g.data.toRat.m.toMatrix.rank ≤ r
  natAbs_entry_le : ∀ i j, (g.data.m.entry i j).natAbs ≤ 9 * n

variable {n k : ℕ}

theorem entry_gram_comm (b : Dense ℤ n k) (i j : Fin n) :
    (gram b).entry i j = (gram b).entry j i := by
  rw [entry_gram, entry_gram]
  exact Finset.sum_congr rfl fun l _ => mul_comm _ _

theorem entry_shifted (m : Dense ℤ n n) (d : ℤ) (i j : Fin n) :
    (shifted m d).entry i j = m.entry i j + if i = j then d else 0 := by
  rw [shifted, Dense.entry_ofFn]

theorem entry_shifted_gram_comm (b : Dense ℤ n k) (d : ℤ) (i j : Fin n) :
    (shifted (gram b) d).entry i j = (shifted (gram b) d).entry j i := by
  rw [entry_shifted, entry_shifted, entry_gram_comm b i j]
  simp only [eq_comm]

/-- The rank of a Gram matrix is at most the number of columns. -/
theorem rank_gram_le (b : Dense ℤ n k) :
    ((gram b).map fun x : ℤ => (x : ℚ)).toMatrix.rank ≤ k := by
  rw [toMatrix_gram]
  exact (rank_mul_le_left _ _).trans (rank_le_width _)

theorem isDefinite_shifted_gram (label : String) {a : Dense ℤ n n} {d : ℤ} (q : Vector ℤ n)
    (ha : ∀ i j, (a.entry i j).natAbs ≤ 4) (hd : 1 ≤ d ∧ d ≤ 3) :
    Generated.IsDefinite n ⟨label, n, ⟨q, shifted (gram a) d⟩⟩ where
  dim_eq := rfl
  symmetric := entry_shifted_gram_comm a d
  form_ge := ⟨d, hd, form_shifted_gram_ge a d⟩
  natAbs_entry_le := natAbs_entry_shifted_gram_le ha hd

theorem isSemidefinite_gram (label : String) {b : Dense ℤ n k} (q : Vector ℤ n) (hk : k ≤ n)
    (hb : ∀ i j, (b.entry i j).natAbs ≤ 3) :
    Generated.IsSemidefinite n k ⟨label, n, ⟨q, gram b⟩⟩ where
  dim_eq := rfl
  symmetric := entry_gram_comm b
  form_nonneg := isPosSemidef_gram b
  rank_le := rank_gram_le b
  natAbs_entry_le i j := by
    have hgram := natAbs_entry_gram_le hb i j
    show ((gram b).entry i j).natAbs ≤ _
    omega

/-- A number in the label changes nothing else. -/
theorem Generated.IsDefinite.numbered {g : Generated} (h : g.IsDefinite n) (number : ℕ) :
    (g.numbered number).IsDefinite n :=
  ⟨h.dim_eq, h.symmetric, h.form_ge, h.natAbs_entry_le⟩

theorem Generated.IsSemidefinite.numbered {r : ℕ} {g : Generated} (h : g.IsSemidefinite n r)
    (number : ℕ) : (g.numbered number).IsSemidefinite n r :=
  ⟨h.dim_eq, h.symmetric, h.form_nonneg, h.rank_le, h.natAbs_entry_le⟩

/-! ## Arithmetic in 64 bits -/

/-- A result in 64-bit arithmetic: the number, or an error if it overflows. -/
def int64 (x : ℤ) : Except ℤ ℤ := if IsInt64 x then .ok x else .error x

/-- The inner product in 64-bit arithmetic, its terms added in a given order. -/
def innerProduct64 (order : List (Fin k)) (x y : Fin k → ℤ) : Except ℤ ℤ :=
  order.foldlM (fun sum l => do int64 (sum + (← int64 (x l * y l)))) 0

/-- A matrix whose entries are computed one after the other. -/
def matrix64 {rows cols : ℕ} (entry : Fin rows → Fin cols → Except ℤ ℤ) :
    Except ℤ (Dense ℤ rows cols) := do
  let entries ← Vector.ofFnM fun i => Vector.ofFnM (entry i)
  return ⟨entries⟩

/-- The Gram matrix in 64-bit arithmetic. -/
def gram64 (order : List (Fin k)) (b : Dense ℤ n k) : Except ℤ (Dense ℤ n n) :=
  matrix64 fun i j => innerProduct64 order (b.entry i) (b.entry j)

/-- A multiple of the identity added in 64-bit arithmetic. -/
def shifted64 (m : Dense ℤ n n) (d : ℤ) : Except ℤ (Dense ℤ n n) :=
  matrix64 fun i j => do int64 (m.entry i j + (← int64 ((if i = j then 1 else 0) * d)))

theorem int64_eq {x : ℤ} {c : ℕ} (hx : x.natAbs ≤ c) (hc : (c : ℤ) ≤ Binary.greatestInt64) :
    int64 x = .ok x := by
  refine if_pos ⟨?_, by omega⟩
  show -9223372036854775808 ≤ x
  have : (c : ℤ) ≤ 9223372036854775807 := hc
  omega

theorem matrix64_eq {rows cols : ℕ} {entry : Fin rows → Fin cols → Except ℤ ℤ}
    {m : Dense ℤ rows cols} (h : ∀ i j, entry i j = .ok (m.entry i j)) :
    matrix64 entry = .ok m := by
  have hentries := ofFnM_eq_ok fun i => ofFnM_eq_ok (h i)
  unfold matrix64
  rw [hentries]
  exact congrArg Except.ok (Dense.ext fun i j => Dense.entry_ofFn m.entry i j)

/-- A sum of short terms, started at `start`, stays within its bound after every step. -/
theorem foldlM_int64_eq {ι : Type} {term : ι → ℤ} {c bound : ℕ} (hterm : ∀ l, (term l).natAbs ≤ c)
    (hbound : (bound : ℤ) ≤ Binary.greatestInt64) (order : List ι) (start : ℤ)
    (hfits : start.natAbs + order.length * c ≤ bound) :
    order.foldlM (fun sum l => do int64 (sum + (← int64 (term l)))) start =
      .ok (start + (order.map term).sum) := by
  induction order generalizing start with
  | nil => exact congrArg Except.ok (add_zero start).symm
  | cons l order ih =>
    have hl := hterm l
    rw [List.length_cons, Nat.succ_mul] at hfits
    have hsum : (start + term l).natAbs ≤ start.natAbs + c :=
      (Int.natAbs_add_le _ _).trans (Nat.add_le_add_left hl _)
    have hproduct : int64 (term l) = .ok (term l) := int64_eq (by omega : _ ≤ bound) hbound
    have hnext : int64 (start + term l) = .ok (start + term l) :=
      int64_eq (by omega : _ ≤ bound) hbound
    have hrest := ih (start + term l) (by omega)
    rw [List.foldlM_cons, hproduct, List.map_cons, List.sum_cons, ← add_assoc, ← hrest]
    show (int64 (start + term l) >>= _) = _
    rw [hnext]
    rfl

/-- **Inner products of short numbers** fit, in whatever order the terms are added. -/
theorem innerProduct64_eq {c : ℕ} {order : List (Fin k)} (horder : order.Perm (List.finRange k))
    {x y : Fin k → ℤ} (hx : ∀ l, (x l).natAbs ≤ c) (hy : ∀ l, (y l).natAbs ≤ c)
    (hfits : ((k * (c * c) : ℕ) : ℤ) ≤ Binary.greatestInt64) :
    innerProduct64 order x y = .ok (∑ l, x l * y l) := by
  have hterm : ∀ l, (x l * y l).natAbs ≤ c * c := fun l => by
    rw [Int.natAbs_mul]
    exact Nat.mul_le_mul (hx l) (hy l)
  have hlength : order.length = k := by rw [horder.length_eq, List.length_finRange]
  have hfold := foldlM_int64_eq hterm hfits order 0 (by rw [hlength]; simp)
  rw [innerProduct64, hfold, zero_add, (horder.map _).sum_eq, Fin.sum_univ_def]

theorem gram64_eq {c : ℕ} {order : List (Fin k)} (horder : order.Perm (List.finRange k))
    {b : Dense ℤ n k} (hb : ∀ i l, (b.entry i l).natAbs ≤ c)
    (hfits : ((k * (c * c) : ℕ) : ℤ) ≤ Binary.greatestInt64) :
    gram64 order b = .ok (gram b) :=
  matrix64_eq fun i j => by
    rw [innerProduct64_eq horder (hb i) (hb j) hfits, entry_gram]

theorem shifted64_eq {c : ℕ} {m : Dense ℤ n n} {d : ℤ} (hm : ∀ i j, (m.entry i j).natAbs ≤ c)
    (hfits : ((c + d.natAbs : ℕ) : ℤ) ≤ Binary.greatestInt64) :
    shifted64 m d = .ok (shifted m d) :=
  matrix64_eq fun i j => by
    have hproduct : (if i = j then 1 else 0) * d = if i = j then d else 0 := by
      rw [ite_mul, one_mul, zero_mul]
    have hsummand : (if i = j then d else 0).natAbs ≤ c + d.natAbs := by
      split <;> omega
    have hsum : (m.entry i j + if i = j then d else 0).natAbs ≤ c + d.natAbs := by
      have := hm i j
      split <;> omega
    rw [hproduct, int64_eq hsummand hfits, entry_shifted]
    exact int64_eq hsum hfits

/-! ## Computations that do not overflow -/

section Fits

variable {σ α β : Type}

/-- A draw, in a computation that may overflow. -/
def exactly (draw : StateM σ α) : StateT σ (Except ℤ) α := fun source => .ok (draw.run source)

/-- From every source on, the first computation does not overflow and yields what the second one
yields, and this has a property. -/
def Fits (checked : StateT σ (Except ℤ) α) (exact : StateM σ α) (P : α → Prop) : Prop :=
  ∀ source, checked.run source = .ok (exact.run source) ∧ P (exact.run source).1

variable {checked : StateT σ (Except ℤ) α} {exact : StateM σ α} {P : α → Prop} {Q : β → Prop}

theorem Fits.exactly (h : ⦃⌜True⌝⦄ exact ⦃⇓ a => ⌜P a⌝⦄) : Fits (exactly exact) exact P :=
  fun source => ⟨rfl, h source trivial⟩

theorem Fits.pure {a : α} (h : P a) :
    Fits (Pure.pure a : StateT σ (Except ℤ) α) (Pure.pure a) P :=
  fun _ => ⟨rfl, h⟩

theorem Fits.bind {next : α → StateT σ (Except ℤ) β} {next' : α → StateM σ β}
    (h : Fits checked exact P) (hnext : ∀ a, P a → Fits (next a) (next' a) Q) :
    Fits (checked >>= next) (exact >>= next') Q := by
  intro source
  obtain ⟨hrun, hP⟩ := h source
  obtain ⟨hrun', hQ⟩ := hnext _ hP (exact.run source).2
  refine ⟨?_, hQ⟩
  rw [StateT.run_bind, hrun]
  exact hrun'

/-- Arithmetic that does not overflow. -/
theorem Fits.arithmetic {e : Except ℤ α} {a : α} {next : α → StateT σ (Except ℤ) β}
    {exact : StateM σ β} (he : e = .ok a) (h : Fits (next a) exact Q) :
    Fits (liftM e >>= next) exact Q := by
  subst he
  exact h

theorem Fits.mapM {ι : Type} {checked : ι → StateT σ (Except ℤ) α} {exact : ι → StateM σ α}
    (h : ∀ i, Fits (checked i) (exact i) P) (l : List ι) :
    Fits (l.mapM checked) (l.mapM exact) fun as => as.length = l.length ∧ ∀ a ∈ as, P a := by
  induction l with
  | nil =>
    rw [List.mapM_nil, List.mapM_nil]
    exact .pure (by simp)
  | cons i l ih =>
    rw [List.mapM_cons, List.mapM_cons]
    refine (h i).bind fun a ha => ih.bind fun as has => .pure ?_
    exact ⟨congrArg Nat.succ has.1, List.forall_mem_cons.2 ⟨ha, has.2⟩⟩

end Fits

/-! ## Generators -/

section Generators

variable {σ : Type} [Random.Source σ]

/-- The generator of the first family in 64-bit arithmetic. -/
def positiveDefinite64 (order : ∀ k, List (Fin k)) (n : ℕ) : StateT σ (Except ℤ) Generated := do
  let a ← exactly (randomMatrix n n (-4) 4)
  let d ← exactly (Random.between 1 3)
  let product ← gram64 (order n) a
  let m ← shifted64 product d
  let q ← exactly (randomConstants n)
  return ⟨s!"pd{n}", n, ⟨q, m⟩⟩

/-- The generator of the second family in 64-bit arithmetic. -/
def positiveSemidefinite64 (order : ∀ k, List (Fin k)) (n : ℕ) :
    StateT σ (Except ℤ) Generated := do
  let rank := (← exactly (Random.between 1 (max n 1 : Nat))).toNat
  let b ← exactly (randomMatrix n rank (-3) 3)
  let m ← gram64 (order rank) b
  let q ← exactly (randomConstants n)
  return ⟨s!"psd{n}r{rank}", n, ⟨q, m⟩⟩

omit [Random.Source σ] in
/-- Numbered copies in 64-bit arithmetic. -/
def copies64 (count : ℕ) (draw : StateT σ (Except ℤ) Generated) :
    StateT σ (Except ℤ) (List Generated) :=
  (List.range count).mapM fun number => return (← draw).numbered number

variable {order : ∀ k, List (Fin k)} {n : ℕ}

/-- **Definiteness.** -/
theorem isDefinite_positiveDefinite (horder : ∀ k, (order k).Perm (List.finRange k))
    (hsize : ((16 * n + 3 : ℕ) : ℤ) ≤ Binary.greatestInt64) :
    Fits (positiveDefinite64 order n) (positiveDefinite n : StateM σ Generated)
      (Generated.IsDefinite n) := by
  refine (Fits.exactly (randomMatrix_spec σ n n (by decide : (-4 : ℤ) ≤ 4)
    (by decide : -(4 : ℕ) ≤ (-4 : ℤ) ∧ (4 : ℤ) ≤ (4 : ℕ)))).bind fun a ha => ?_
  refine (Fits.exactly (between_spec σ (by decide : (1 : ℤ) ≤ 3))).bind fun d hd => ?_
  refine .arithmetic (gram64_eq (horder n) ha (by omega)) ?_
  refine .arithmetic (shifted64_eq (natAbs_entry_gram_le ha) (by omega)) ?_
  refine (Fits.exactly (randomConstants_spec σ n)).bind fun q _ => .pure ?_
  exact isDefinite_shifted_gram _ q ha hd

/-- **Semidefiniteness.** -/
theorem isSemidefinite_positiveSemidefinite (horder : ∀ k, (order k).Perm (List.finRange k))
    (hn : 1 ≤ n) (hsize : ((16 * n + 3 : ℕ) : ℤ) ≤ Binary.greatestInt64) :
    Fits (positiveSemidefinite64 order n) (positiveSemidefinite n : StateM σ Generated)
      fun g => ∃ r, (1 ≤ r ∧ r ≤ n) ∧ g.label = s!"psd{n}r{r}" ∧ g.IsSemidefinite n r := by
  refine (Fits.exactly (between_spec σ (by omega : (1 : ℤ) ≤ (max n 1 : ℕ)))).bind fun r hr => ?_
  have hrank : 1 ≤ r.toNat ∧ r.toNat ≤ n := by omega
  refine (Fits.exactly (randomMatrix_spec σ n r.toNat (by decide : (-3 : ℤ) ≤ 3)
    (by decide : -(3 : ℕ) ≤ (-3 : ℤ) ∧ (3 : ℤ) ≤ (3 : ℕ)))).bind fun b hb => ?_
  refine .arithmetic (gram64_eq (horder _) hb (by omega)) ?_
  refine (Fits.exactly (randomConstants_spec σ n)).bind fun q _ => .pure ?_
  exact ⟨r.toNat, hrank, rfl, isSemidefinite_gram _ q hrank.2 hb⟩

omit [Random.Source σ] in
/-- What is numbered changes its label only. -/
theorem Fits.copies {checked : StateT σ (Except ℤ) Generated} {exact : StateM σ Generated}
    {P P' : Generated → Prop} (h : Fits checked exact P)
    (hnumbered : ∀ g number, P g → P' (g.numbered number)) (count : ℕ) :
    Fits (copies64 count checked) (copies count exact)
      fun problems => problems.length = count ∧ ∀ g ∈ problems, P' g := by
  have hall := Fits.mapM (fun number => h.bind fun g hg =>
    Fits.pure (σ := σ) (hnumbered g number hg)) (List.range count)
  rw [List.length_range] at hall
  exact hall

/-- **The classes of generated problems.**  From every source of random words on, and in whatever
order inner products are added, both generators and their numbered copies compute in 64 bits what
they compute exactly, and what they yield belongs to its class. -/
theorem generators_fit (horder : ∀ k, (order k).Perm (List.finRange k)) (hn : 1 ≤ n)
    (hsize : ((16 * n + 3 : ℕ) : ℤ) ≤ Binary.greatestInt64) (count : ℕ) :
    Fits (positiveDefinite64 order n) (positiveDefinite n : StateM σ Generated)
      (Generated.IsDefinite n) ∧
    Fits (positiveSemidefinite64 order n) (positiveSemidefinite n : StateM σ Generated)
      (fun g => ∃ r, (1 ≤ r ∧ r ≤ n) ∧ g.label = s!"psd{n}r{r}" ∧ g.IsSemidefinite n r) ∧
    Fits (copies64 count (positiveDefinite64 order n))
      (Family.positiveDefinite.instances n count : StateM σ (List Generated))
      (fun problems => problems.length = count ∧ ∀ g ∈ problems, g.IsDefinite n) ∧
    Fits (copies64 count (positiveSemidefinite64 order n))
      (Family.positiveSemidefinite.instances n count : StateM σ (List Generated))
      (fun problems => problems.length = count ∧ ∀ g ∈ problems,
        ∃ r, (1 ≤ r ∧ r ≤ n) ∧ (∃ number : ℕ, g.label = s!"psd{n}r{r}-{number}") ∧
          g.IsSemidefinite n r) := by
  have hdefinite := isDefinite_positiveDefinite (σ := σ) horder hsize
  have hsemidefinite := isSemidefinite_positiveSemidefinite (σ := σ) horder hn hsize
  refine ⟨hdefinite, hsemidefinite, hdefinite.copies (fun g number h => h.numbered number) count,
    hsemidefinite.copies (fun g number h => ?_) count⟩
  obtain ⟨r, hr, hlabel, hclass⟩ := h
  refine ⟨r, hr, ⟨number, ?_⟩, hclass.numbered number⟩
  rw [Generated.numbered, hlabel]
  rfl

/-- The law in dimension four, for the stream of a seed and sums taken from the last term on: both
generators and two instances of either family. -/
theorem generators_fit_four : (∀ k, (List.finRange k).reverse.Perm (List.finRange k)) ∧ 1 ≤ 4 ∧
    ((16 * 4 + 3 : ℕ) : ℤ) ≤ Binary.greatestInt64 ∧
    ((positiveDefinite 4).run (Random.ChaCha.ofSeed 7)).1.IsDefinite 4 ∧
    (∃ r, (1 ≤ r ∧ r ≤ 4) ∧
      ((positiveSemidefinite 4).run (Random.ChaCha.ofSeed 7)).1.label = s!"psd{4}r{r}" ∧
      ((positiveSemidefinite 4).run (Random.ChaCha.ofSeed 7)).1.IsSemidefinite 4 r) ∧
    ((copies64 2 (positiveDefinite64 (fun k => (List.finRange k).reverse) 4)).run
        (Random.ChaCha.ofSeed 7) =
      .ok ((Family.positiveDefinite.instances 4 2).run (Random.ChaCha.ofSeed 7)) ∧
      ((Family.positiveDefinite.instances 4 2).run (Random.ChaCha.ofSeed 7)).1.length = 2 ∧
      ∀ g ∈ ((Family.positiveDefinite.instances 4 2).run (Random.ChaCha.ofSeed 7)).1,
        g.IsDefinite 4) ∧
    (copies64 2 (positiveSemidefinite64 (fun k => (List.finRange k).reverse) 4)).run
        (Random.ChaCha.ofSeed 7) =
      .ok ((Family.positiveSemidefinite.instances 4 2).run (Random.ChaCha.ofSeed 7)) ∧
      ((Family.positiveSemidefinite.instances 4 2).run (Random.ChaCha.ofSeed 7)).1.length = 2 ∧
      ∀ g ∈ ((Family.positiveSemidefinite.instances 4 2).run (Random.ChaCha.ofSeed 7)).1,
        ∃ r, (1 ≤ r ∧ r ≤ 4) ∧ (∃ number : ℕ, g.label = s!"psd{4}r{r}-{number}") ∧
          g.IsSemidefinite 4 r := by
  have horder : ∀ k, (List.finRange k).reverse.Perm (List.finRange k) := fun k =>
    List.reverse_perm _
  obtain ⟨hdefinite, hsemidefinite, hinstances, hinstances'⟩ :=
    generators_fit (σ := Random.ChaCha) horder (by decide : 1 ≤ 4) (by decide) 2
  exact ⟨horder, by decide, by decide, (hdefinite (Random.ChaCha.ofSeed 7)).2,
    (hsemidefinite (Random.ChaCha.ofSeed 7)).2, hinstances (Random.ChaCha.ofSeed 7),
    hinstances' (Random.ChaCha.ofSeed 7)⟩

end Generators

end Complementarity.Benchmark
