import Complementarity.Proofs.Feasibility

/-!
# Vertices of the perturbed system

A set of basic variables *has a vertex* if the perturbed system has a solution that is positive
there and zero elsewhere.  Whether it has one depends on the problem alone, not on the run, which
is what makes it possible to compare distant states of a run.  What is proved here:

* **every state of a run stands at a vertex** — `State.Valid.hasVertex`;
* **one way to leave** — `State.Valid.eq_of_hasVertex`: if a nonbasic variable enters the basis of
  a state, there is at most one variable whose place it can take so that the result has a vertex.
  This holds for the driving variable, and just as well for the one that has just left;
* **the first state is an end** — `State.not_hasVertex_of_start`: if the variable that has left the
  basis of the first state comes back, the result never has a vertex;
* **slack variables** — `Lcp.IsVertex.mem_of_slack`: a vertex at which all `z_j` are zero and the
  slack variable of the first pivot row is not, has all slack variables and the artificial one in
  its basis.
-/

namespace Complementarity

open Tableau Variable

variable {n : Nat} {p : Lcp ℚ n}

/-- A solution of the perturbed system that is positive on a set of variables and zero elsewhere. -/
structure Lcp.IsVertex (p : Lcp ℚ n) (S : Finset (Variable n)) (x : Variable n → Perturbed n) :
    Prop where
  augmented : p.Augmented Perturbed.power x
  pos : ∀ u ∈ S, 0 < x u
  zero : ∀ u ∉ S, x u = 0

/-- The perturbed system has a solution that is positive on the set and zero elsewhere. -/
def Lcp.HasVertex (p : Lcp ℚ n) (S : Finset (Variable n)) : Prop := ∃ x, p.IsVertex S x

/-! ## The states of a run -/

namespace State.Valid

variable {s : State ℚ n}

/-- The vertex of a state: the basic variables have the perturbed constants of their rows. -/
theorem isVertex (h : s.Valid p) :
    p.IsVertex s.current.basicSet (s.current.along s.tableau.value s.column 0) := by
  refine ⟨?_, ?_, fun u hu => Basis.along_zero_of_notMem _ _ hu⟩
  · have halong := h.dictionary.augmented_along h.arranged Perturbed.power s.column 0
    simp only [smul_zero, add_zero, ← value_eq_valueAt] at halong
    exact halong
  · intro u hu
    obtain ⟨r, rfl⟩ := Basis.mem_basicSet.1 hu
    rw [Basis.along_inRow h.arranged]
    exact h.feasible r

theorem hasVertex (h : s.Valid p) : p.HasVertex s.current.basicSet := ⟨_, h.isVertex⟩

/-- The coordinates of a neighbouring vertex are read off the column of the entering variable. -/
theorem eq_of_isVertex (h : s.Valid p) (c : Fin (n + 1)) {u : Variable n}
    {x : Variable n → Perturbed n}
    (hx : p.IsVertex (insert (s.current.inColumn c) (s.current.basicSet.erase u)) x) (r : Fin n) :
    x (s.current.inRow r) =
      s.tableau.value r + s.tableau.coefficient r c • x (s.current.inColumn c) := by
  rw [value_eq_valueAt]
  refine h.dictionary.eq_of_column hx.augmented c (fun c' hc' => hx.zero _ ?_) r
  rw [Finset.mem_insert, Finset.mem_erase]
  rintro (heq | ⟨-, hmem⟩)
  · exact hc' (h.arranged.inColumn_injective heq)
  · exact h.arranged.inColumn_notMem_basicSet c' hmem

/-- A row that leaves when another one might have left instead: its entry in the column is
negative, and the entering variable goes less far than it would in the other case. -/
theorem lt_of_isVertex (h : s.Valid p) (c : Fin (n + 1)) {r r' : Fin n} (hne : r ≠ r')
    {x x' : Variable n → Perturbed n}
    (hx : p.IsVertex
      (insert (s.current.inColumn c) (s.current.basicSet.erase (s.current.inRow r))) x)
    (hx' : p.IsVertex
      (insert (s.current.inColumn c) (s.current.basicSet.erase (s.current.inRow r'))) x') :
    x' (s.current.inColumn c) < x (s.current.inColumn c) := by
  have hleaves : s.current.inRow r ∉
      insert (s.current.inColumn c) (s.current.basicSet.erase (s.current.inRow r)) := by
    rw [Finset.mem_insert, Finset.mem_erase]
    rintro (heq | ⟨hself, -⟩)
    · exact h.arranged.inRow_ne_inColumn r c heq
    · exact hself rfl
  have hstays : s.current.inRow r ∈
      insert (s.current.inColumn c) (s.current.basicSet.erase (s.current.inRow r')) :=
    Finset.mem_insert_of_mem (Finset.mem_erase.2
      ⟨h.arranged.inRow_injective.ne hne, Basis.mem_basicSet.2 ⟨r, rfl⟩⟩)
  have hzero : s.tableau.value r + s.tableau.coefficient r c • x (s.current.inColumn c) = 0 :=
    (h.eq_of_isVertex c hx r).symm.trans (hx.zero _ hleaves)
  have hpos : 0 < s.tableau.value r + s.tableau.coefficient r c • x' (s.current.inColumn c) := by
    rw [← h.eq_of_isVertex c hx' r]
    exact hx'.pos _ hstays
  have hentering : 0 < x (s.current.inColumn c) := hx.pos _ (Finset.mem_insert_self _ _)
  have hneg : s.tableau.coefficient r c < 0 := by
    by_contra hcoefficient
    have hnonneg := smul_nonneg (not_lt.1 hcoefficient) hentering.le
    exact (add_pos_of_pos_of_nonneg (h.feasible r) hnonneg).ne' hzero
  rw [← hzero, add_lt_add_iff_left] at hpos
  exact (smul_lt_smul_iff_of_neg_left hneg).1 hpos

/-- **One way to leave.**  At most one basic variable can make room for a nonbasic one. -/
theorem eq_of_hasVertex (h : s.Valid p) (c : Fin (n + 1)) {u u' : Variable n}
    (hu : u ∈ s.current.basicSet) (hu' : u' ∈ s.current.basicSet)
    (hvertex : p.HasVertex (insert (s.current.inColumn c) (s.current.basicSet.erase u)))
    (hvertex' : p.HasVertex (insert (s.current.inColumn c) (s.current.basicSet.erase u'))) :
    u = u' := by
  obtain ⟨r, rfl⟩ := Basis.mem_basicSet.1 hu
  obtain ⟨r', rfl⟩ := Basis.mem_basicSet.1 hu'
  obtain ⟨x, hx⟩ := hvertex
  obtain ⟨x', hx'⟩ := hvertex'
  by_contra hne
  have hrow : r ≠ r' := fun heq => hne (heq ▸ rfl)
  exact lt_asymm (h.lt_of_isVertex c hrow hx hx') (h.lt_of_isVertex c hrow.symm hx' hx)

end State.Valid

/-! ## The first state -/

/-- **Slack variables.**  Where all `z_j` are zero, the slack variable of the row with the least
constant is the least one. -/
theorem Lcp.IsVertex.mem_of_slack {S : Finset (Variable n)} {x : Variable n → Perturbed n}
    (hx : p.IsVertex S x) {row : Fin n} (hneg : p.loaded.value row < 0)
    (hle : ∀ r, p.loaded.value row ≤ p.loaded.value r)
    (hz : ∀ j : Fin n, Variable.z j.castSucc ∉ S) (hrow : Variable.w row.castSucc ∈ S) :
    artificial n ∈ S ∧ ∀ r : Fin n, Variable.w r.castSucc ∈ S := by
  have hslack : ∀ r : Fin n, x (.w r.castSucc) = p.loaded.value r + x (artificial n) := by
    intro r
    rw [value_loaded]
    exact hx.augmented.slack_eq (fun j => hx.zero _ (hz j)) r
  have hpos : 0 < p.loaded.value row + x (artificial n) := hslack row ▸ hx.pos _ hrow
  constructor
  · by_contra hmem
    rw [hx.zero _ hmem, add_zero] at hpos
    exact lt_asymm hneg hpos
  · intro r
    by_contra hmem
    have hzero : p.loaded.value r + x (artificial n) = 0 := (hslack r).symm.trans (hx.zero _ hmem)
    exact hpos.not_ge (hzero ▸ add_le_add_left (hle r) _)

/-- The basic variables of the first state. -/
theorem State.mem_basicSet_start {row : Fin n} {v : Variable n} :
    v ∈ (State.start p.loaded row).current.basicSet ↔
      v = artificial n ∨ ∃ r : Fin n, r ≠ row ∧ v = .w r.castSucc := by
  have hset := Basis.arranged_initial.basicSet_exchange row (Fin.last n)
  rw [State.current, State.exchanged, State.start, hset, Basis.inColumn_initial,
    Basis.inRow_initial, Finset.mem_insert, Finset.mem_erase, Basis.mem_basicSet]
  refine or_congr Iff.rfl ⟨?_, ?_⟩
  · rintro ⟨hne, r, rfl⟩
    rw [Basis.inRow_initial] at hne ⊢
    exact ⟨r, fun heq => hne (heq ▸ rfl), rfl⟩
  · rintro ⟨r, hne, rfl⟩
    refine ⟨fun heq => hne ?_, r, Basis.inRow_initial r⟩
    simpa using heq

/-- **The first state is an end.**  The variable that has left the basis of the first state cannot
come back: no basic variable can make room for it. -/
theorem State.not_hasVertex_of_start {s : State ℚ n} (h : p.start? = some s) {u : Variable n}
    (hu : u ∈ s.current.basicSet) :
    ¬ p.HasVertex (insert (s.current.inColumn s.column) (s.current.basicSet.erase u)) := by
  obtain ⟨row, rfl, hneg, hle⟩ := Lcp.le_of_start_eq_some h
  rintro ⟨x, hx⟩
  have hleft : (start p.loaded row).current.inColumn (start p.loaded row).column =
      .w row.castSucc := (inColumn_current _).trans (Basis.inRow_initial row)
  rw [hleft] at hx
  have hleaves : u ∉ insert (Variable.w row.castSucc)
      ((start p.loaded row).current.basicSet.erase u) := by
    rw [Finset.mem_insert, Finset.mem_erase]
    rintro (rfl | ⟨hself, -⟩)
    · rcases mem_basicSet_start.1 hu with heq | ⟨r, hr, heq⟩
      · nomatch heq
      · exact hr (by simpa using heq.symm)
    · exact hself rfl
  have hz : ∀ j : Fin n, Variable.z j.castSucc ∉ insert (Variable.w row.castSucc)
      ((start p.loaded row).current.basicSet.erase u) := by
    intro j hj
    rw [Finset.mem_insert, Finset.mem_erase, mem_basicSet_start] at hj
    rcases hj with heq | ⟨-, heq | ⟨r, -, heq⟩⟩
    · nomatch heq
    · exact j.castSucc_lt_last.ne (Variable.z.inj heq)
    · nomatch heq
  obtain ⟨hartificial, hslack⟩ := hx.mem_of_slack hneg hle hz (Finset.mem_insert_self _ _)
  rcases mem_basicSet_start.1 hu with rfl | ⟨r, -, rfl⟩
  · exact hleaves hartificial
  · exact hleaves (hslack r)

end Complementarity
