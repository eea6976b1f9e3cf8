import Mathlib.Data.Finset.Sigma
import Mathlib.Algebra.BigOperators.GroupWithZero.Action
import Mathlib.Data.Fintype.Powerset
import Complementarity.Proofs.Path
import Complementarity.Proofs.Solution

/-!
# Exact runs stop by themselves

Since a run meets no basis twice, it makes no more pivots than there are bases that it can meet.
Until the artificial variable leaves, such a basis has the artificial variable and, of each pair but
one, exactly one variable.  Of these `n * 2 ^ (n - 1)` sets the run can only meet those with a
vertex, which excludes `n - 1` of them: the sets of slack variables, but for the one from which the
run starts.

* **what a run can meet** — `Basis.Linked.exists_choice` and `Lcp.HasVertex.eq_of_choice_empty`;
* **how much that is** — `card_choices`, and from it `Lcp.Path.length_le`;
* **no cycling** — `Solver.nodup_basicSet_solve`: no two pivots of a run reach the same set of basic
  variables, and a budget of `iterationBound n` iterations is always enough.
-/

namespace Complementarity

open Variable

variable {n : Nat}

/-- The greatest number of iterations that a run in exact arithmetic makes in dimension `n`. -/
def iterationBound (n : Nat) : Nat := n * 2 ^ (n - 1) - n + 2

/-! ## What a run can meet -/

/-- The artificial variable and, from each pair but the `k`-th, the variable `z_i` if `i` is in `T`
and the variable `w_i` otherwise. -/
def choice (k : Fin n) (T : Finset (Fin n)) : Finset (Variable n) :=
  insert (artificial n)
    ((Finset.univ.erase k).image fun i => if i ∈ T then .z i.castSucc else .w i.castSucc)

theorem artificial_mem_choice (k : Fin n) (T : Finset (Fin n)) : artificial n ∈ choice k T :=
  Finset.mem_insert_self _ _

theorem formal_notMem_choice (k : Fin n) (T : Finset (Fin n)) : formal n ∉ choice k T := by
  simp only [choice, Finset.mem_insert, Finset.mem_image, not_or, not_exists, not_and]
  refine ⟨partner_ne (artificial n), fun i _ heq => ?_⟩
  split at heq
  · nomatch heq
  · exact i.castSucc_lt_last.ne (Variable.w.inj heq)

theorem z_mem_choice {k i : Fin n} {T : Finset (Fin n)} :
    Variable.z i.castSucc ∈ choice k T ↔ i ≠ k ∧ i ∈ T := by
  simp only [choice, Finset.mem_insert, Finset.mem_image, Finset.mem_erase, Finset.mem_univ,
    and_true]
  constructor
  · rintro (heq | ⟨j, hj, heq⟩)
    · exact absurd (Variable.z.inj heq) i.castSucc_lt_last.ne
    · split at heq
      · rename_i hmem
        obtain rfl : j = i := by simpa using heq
        exact ⟨hj, hmem⟩
      · nomatch heq
  · rintro ⟨hi, hmem⟩
    exact Or.inr ⟨i, hi, if_pos hmem⟩

theorem w_mem_choice {k i : Fin n} {T : Finset (Fin n)} :
    Variable.w i.castSucc ∈ choice k T ↔ i ≠ k ∧ i ∉ T := by
  simp only [choice, Finset.mem_insert, Finset.mem_image, Finset.mem_erase, Finset.mem_univ,
    and_true]
  constructor
  · rintro (heq | ⟨j, hj, heq⟩)
    · nomatch heq
    · split at heq
      · nomatch heq
      · rename_i hmem
        obtain rfl : j = i := by simpa using heq
        exact ⟨hj, hmem⟩
  · rintro ⟨hi, hmem⟩
    exact Or.inr ⟨i, hi, if_neg hmem⟩

namespace Basis.Linked

variable {b : Basis n} {left driving : Fin (n + 1)}

/-- **One variable of each pair but one.**  Until the artificial variable leaves, the basic
variables are a choice from all pairs but one. -/
theorem exists_choice (h : b.Linked left driving) :
    ∃ k T, T ⊆ Finset.univ.erase k ∧ b.basicSet = choice k T := by
  obtain ⟨k, hmissing⟩ := h.exists_missing
  have hboth : ∀ i : Fin n,
      ¬ (Variable.w i.castSucc ∈ b.basicSet ∧ Variable.z i.castSucc ∈ b.basicSet) :=
    fun i hmem => h.partner_notMem_basicSet hmem.1 hmem.2
  refine ⟨k, Finset.univ.filter fun i => Variable.z i.castSucc ∈ b.basicSet, ?_, ?_⟩
  · intro i hi
    rw [Finset.mem_filter] at hi
    refine Finset.mem_erase.2 ⟨fun hik => ?_, Finset.mem_univ i⟩
    exact ((hmissing i).2 hik).2 hi.2
  · ext v
    cases v using rowCases with
    | artificial =>
      exact iff_of_true (Basis.mem_basicSet.2 h.artificial_row) (artificial_mem_choice _ _)
    | formal => exact iff_of_false h.formal_notMem_basicSet (formal_notMem_choice _ _)
    | w i =>
      have hi := hmissing i
      have hi' := hboth i
      rw [w_mem_choice, Finset.mem_filter, and_iff_right (Finset.mem_univ i), ne_eq, ← hi]
      tauto
    | z i =>
      have hi := hmissing i
      rw [z_mem_choice, Finset.mem_filter, and_iff_right (Finset.mem_univ i), ne_eq, ← hi]
      tauto

end Basis.Linked

/-- **Slack variables.**  A choice of slack variables alone has no vertex, unless the pair left out
is that of the row in which the artificial variable enters. -/
theorem Lcp.HasVertex.eq_of_choice_empty {p : Lcp ℚ n} {row k : Fin n}
    (hneg : p.loaded.value row < 0) (hle : ∀ r, p.loaded.value row ≤ p.loaded.value r)
    (h : p.HasVertex (choice k ∅)) : k = row := by
  obtain ⟨x, hx⟩ := h
  by_contra hne
  have hz : ∀ j : Fin n, Variable.z j.castSucc ∉ choice k ∅ := by simp [z_mem_choice]
  have hrow : Variable.w row.castSucc ∈ choice k ∅ := by simp [w_mem_choice, Ne.symm hne]
  have hslack := (hx.mem_of_slack hneg hle hz hrow).2 k
  exact (w_mem_choice.1 hslack).1 rfl

/-! ## How much that is -/

/-- The pair left out and the `z_i` chosen, for the sets that a run can meet. -/
def choices (row : Fin n) : Finset (Σ _ : Fin n, Finset (Fin n)) :=
  (Finset.univ.sigma fun k => (Finset.univ.erase k).powerset) \
    (Finset.univ.erase row).image fun k => ⟨k, ∅⟩

theorem card_choices (row : Fin n) : (choices row).card = n * 2 ^ (n - 1) - (n - 1) := by
  have herase : ∀ k : Fin n, (Finset.univ.erase k).card = n - 1 := fun k => by
    rw [Finset.card_erase_of_mem (Finset.mem_univ k), Finset.card_univ, Fintype.card_fin]
  have hslack : ((Finset.univ.erase row).image fun k : Fin n =>
      (⟨k, ∅⟩ : Σ _ : Fin n, Finset (Fin n))).card = n - 1 := by
    rw [Finset.card_image_of_injective _ fun k k' heq => congrArg Sigma.fst heq, herase]
  rw [choices, Finset.card_sdiff_of_subset, hslack, Finset.card_sigma]
  · simp only [Finset.card_powerset, herase, Finset.sum_const, Finset.card_univ, Fintype.card_fin,
      smul_eq_mul]
  · intro c hc
    obtain ⟨k, -, rfl⟩ := Finset.mem_image.1 hc
    simp

/-- The states of a path have different basic variables. -/
theorem Lcp.Path.injOn_basicSet {p : Lcp ℚ n} {m : Nat} {t : Nat → State ℚ n} (h : p.Path m t) :
    Set.InjOn (fun i => (t i).current.basicSet) (Finset.range m) := by
  intro i hi j hj heq
  have hi := Finset.mem_range.1 hi
  have hj := Finset.mem_range.1 hj
  rcases lt_trichotomy i j with hlt | rfl | hlt
  · exact absurd heq (h.basicSet_ne hj.le hlt)
  · rfl
  · exact absurd heq.symm (h.basicSet_ne hi.le hlt)

/-- **The length of a path.** -/
theorem Lcp.Path.length_le {p : Lcp ℚ n} {m : Nat} {t : Nat → State ℚ n} (h : p.Path m t) :
    m + 1 ≤ iterationBound n := by
  obtain ⟨row, -, hneg, hle⟩ := Lcp.le_of_start_eq_some h.start
  have hmem : ∀ i ∈ Finset.range m, (t i).current.basicSet ∈
      (choices row).image fun c => choice c.1 c.2 := by
    intro i hi
    have hi := Finset.mem_range.1 hi
    have hvalid := h.valid hi.le
    obtain ⟨k, T, hT, hset⟩ := (hvalid.linked (h.isReleased_eq_false hi)).exists_choice
    refine Finset.mem_image.2 ⟨⟨k, T⟩, Finset.mem_sdiff.2 ⟨by simpa using hT, ?_⟩, hset.symm⟩
    intro hslack
    obtain ⟨k', hk', heq⟩ := Finset.mem_image.1 hslack
    obtain ⟨rfl, rfl⟩ : k' = k ∧ ∅ = T := by simpa using heq
    have hvertex := hset ▸ hvalid.hasVertex
    exact Finset.ne_of_mem_erase hk' (hvertex.eq_of_choice_empty hneg hle)
  have hcard : m ≤ n * 2 ^ (n - 1) - (n - 1) := calc
    m = (Finset.range m).card := (Finset.card_range m).symm
    _ ≤ ((choices row).image fun c => choice c.1 c.2).card :=
      Finset.card_le_card_of_injOn _ hmem h.injOn_basicSet
    _ ≤ (choices row).card := Finset.card_image_le
    _ = n * 2 ^ (n - 1) - (n - 1) := card_choices row
  have hpos : 0 < n := row.pos
  have hle : n ≤ n * 2 ^ (n - 1) := Nat.le_mul_of_pos_right n (Nat.two_pow_pos _)
  rw [iterationBound]
  omega

/-! ## No cycling -/

/-- **The length of a run.** -/
theorem Lcp.length_trace_le {p : Lcp ℚ n} {s : State ℚ n} (h : p.start? = some s) (budget : Nat) :
    (s.trace budget).length ≤ iterationBound n := by
  have hlength := (p.path_trace h budget).length_le
  omega

/-- A sufficient budget is never spent. -/
theorem Lcp.status_run_ne_failedToConverge (p : Lcp ℚ n) {settings : Settings}
    (hbudget : iterationBound n ≤ settings.budget n) (d : Diagnostics) (workspace : Tableau ℚ n)
    (buffer : Point ℚ n) : (p.run settings d workspace buffer).1.status ≠ .failedToConverge := by
  cases hstart : p.start? with
  | none =>
    rw [run_of_start_eq_none p settings d workspace buffer hstart]
    nofun
  | some s =>
    have hlength := (p.length_trace_le hstart (settings.budget n)).trans hbudget
    rw [status_run_eq hstart, if_pos hlength]
    split
    · nofun
    · nofun

theorem Lcp.iterations_run_le (p : Lcp ℚ n) (settings : Settings) (d : Diagnostics)
    (workspace : Tableau ℚ n) (buffer : Point ℚ n) :
    (p.run settings d workspace buffer).1.cost.iterations ≤ iterationBound n := by
  cases hstart : p.start? with
  | none =>
    rw [run_of_start_eq_none p settings d workspace buffer hstart]
    exact Nat.zero_le _
  | some s =>
    rw [iterations_run hstart]
    exact (min_le_right _ _).trans (p.length_trace_le hstart _)

/-- No two pivots of a run reach the same set of basic variables. -/
theorem Lcp.nodup_basicSet_run (p : Lcp ℚ n) (settings : Settings) (d : Diagnostics)
    (workspace : Tableau ℚ n) (buffer : Point ℚ n) :
    (((Basis.initial n).afterEach (p.run settings d workspace buffer).1.pivots).map
      Basis.basicSet).Nodup := by
  cases hstart : p.start? with
  | none =>
    rw [run_of_start_eq_none p settings d workspace buffer hstart]
    exact List.nodup_nil
  | some s =>
    have hbasis : s.basis = Basis.initial n := by
      obtain ⟨row, rfl, -⟩ := Lcp.le_of_start_eq_some hstart
      rfl
    rw [pivots_run hstart, ← hbasis, State.afterEach_trace, List.map_map]
    exact p.nodup_basicSet_trace hstart _

/-- **No cycling.**  No two pivots of a solve reach the same set of basic variables, the iterations
are bounded, and the budget is not spent if it is as large as the bound.  In dimensions one and two
the default budget is. -/
theorem Solver.nodup_basicSet_solve (s : Solver ℚ) {p : Problem ℚ} {lcp : Lcp ℚ p.dim}
    (hp : p.sized = .ok lcp) (hs : s.settings.isUsable = true) :
    ∃ o, (s.solve p).1 = .ok o ∧
      (((Basis.initial p.dim).afterEach o.pivots).map Basis.basicSet).Nodup ∧
      o.cost.iterations ≤ iterationBound p.dim ∧
      (iterationBound p.dim ≤ s.settings.budget p.dim → o.status ≠ .failedToConverge) ∧
      (p.dim ≤ 2 → s.settings.maxIter = none → o.status ≠ .failedToConverge) := by
  refine ⟨_, s.solve_fst hp hs, lcp.nodup_basicSet_run _ _ _ _, lcp.iterations_run_le _ _ _ _, ?_,
    fun hdim hdefault => ?_⟩
  · exact fun hbudget => lcp.status_run_ne_failedToConverge hbudget _ _ _
  · refine lcp.status_run_ne_failedToConverge ?_ _ _ _
    have hpos := Problem.dim_pos hp
    rw [Settings.budget, hdefault]
    generalize p.dim = n at hdim hpos
    obtain rfl | rfl : n = 1 ∨ n = 2 := by omega
    · decide
    · decide

theorem nodup_basicSet_solve_tied :
    ∃ o, ((Solver.new ℚ {}).solve (.ofLcp tied)).1 = .ok o ∧
      (((Basis.initial 2).afterEach o.pivots).map Basis.basicSet).Nodup ∧
      o.cost.iterations ≤ 4 ∧ o.status ≠ .failedToConverge := by
  have hsized : (Problem.ofLcp tied).sized = .ok tied := rfl
  obtain ⟨o, ho, hnodup, hiterations, -, hsmall⟩ :=
    (Solver.new ℚ {}).nodup_basicSet_solve hsized rfl
  exact ⟨o, ho, hnodup, hiterations, hsmall (le_refl 2) rfl⟩

end Complementarity
