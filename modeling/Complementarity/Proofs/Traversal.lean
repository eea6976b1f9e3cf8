import Mathlib.Algebra.Module.LinearMap.Defs
import Mathlib.LinearAlgebra.Span.Basic
import Complementarity.Proofs.NoCycling
import Complementarity.Proofs.Ray

/-!
# Runs that meet every vertex

A run walks along complementary solutions of the perturbed augmented system: on each edge one
variable drives, and the artificial variable takes all values between those at its two ends.  If
that value determines a complementary solution, the run cannot pass a vertex by without meeting it.
So a run that ends with a solution meets every vertex there is, and the number of its pivots is a
number of vertices, in whatever order it comes upon them.

* **complementary solutions** — `Lcp.IsComplementary`: those of a vertex
  (`Lcp.IsVertex.isComplementary`) and those inside an edge (`State.Valid.isComplementary_edge`),
  where no pair is zero (`State.Valid.edge_pos`);
* **from the top to zero** — `Lcp.IsComplementary.artificial_le`: at the first state the artificial
  variable has the greatest value that it has at any vertex, and at the end it is zero;
* **every vertex is met** — `Lcp.Path.exists_basicSet_eq`;
* **the number of pivots** — `Lcp.Path.card_meetable`.
-/

namespace Complementarity

open Tableau Variable

variable {n : Nat} {p : Lcp ℚ n}

/-! ## Complementary solutions -/

/-- A solution of the perturbed augmented system without a negative value, in which one of any two
partners is zero. -/
structure Lcp.IsComplementary (p : Lcp ℚ n) (x : Variable n → Perturbed n) : Prop where
  augmented : p.Augmented Perturbed.power x
  nonneg : ∀ u, 0 ≤ x u
  complementary : ∀ u, x u = 0 ∨ x u.partner = 0
  formal_eq_zero : x (formal n) = 0

/-- The value of the artificial variable determines a complementary solution. -/
def Lcp.IsDetermined (p : Lcp ℚ n) : Prop :=
  ∀ x y, p.IsComplementary x → p.IsComplementary y → x (artificial n) = y (artificial n) → x = y

/-- A vertex is complementary if its basic variables are no partners of one another. -/
theorem Lcp.IsVertex.isComplementary {S : Finset (Variable n)} {x : Variable n → Perturbed n}
    (hx : p.IsVertex S x) (hS : ∀ u ∈ S, u.partner ∉ S) (hformal : formal n ∉ S) :
    p.IsComplementary x := by
  refine ⟨hx.augmented, fun u => ?_, fun u => ?_, hx.zero _ hformal⟩
  · by_cases hu : u ∈ S
    · exact (hx.pos u hu).le
    · exact (hx.zero u hu).ge
  · by_cases hu : u ∈ S
    · exact Or.inr (hx.zero _ (hS u hu))
    · exact Or.inl (hx.zero u hu)

theorem partner_notMem_choice {k : Fin n} {T : Finset (Fin n)} {u : Variable n}
    (hu : u ∈ choice k T) : u.partner ∉ choice k T := by
  intro hpartner
  cases u using rowCases with
  | artificial => exact formal_notMem_choice k T hpartner
  | formal => exact formal_notMem_choice k T hu
  | w i => exact (w_mem_choice.1 hu).2 (z_mem_choice.1 hpartner).2
  | z i => exact (w_mem_choice.1 hpartner).2 (z_mem_choice.1 hu).2

/-! ## Edges -/

namespace State

/-- The vertex of a state: the basic variables have the perturbed constants of their rows. -/
noncomputable def vertex (s : State ℚ n) : Variable n → Perturbed n :=
  s.current.along s.tableau.value s.column 0

/-- The points on the edge along which the driving variable grows. -/
noncomputable def edge (s : State ℚ n) (a : Perturbed n) : Variable n → Perturbed n :=
  fun u => s.vertex u + s.direction u • a

namespace Valid

variable {s t : State ℚ n} {a : Perturbed n}

theorem isVertex_vertex (h : s.Valid p) : p.IsVertex s.current.basicSet s.vertex := h.isVertex

theorem isComplementary_vertex (h : s.Valid p) : p.IsComplementary s.vertex :=
  h.isVertex_vertex.isComplementary (fun _ => h.arranged.partner_notMem_basicSet)
    h.arranged.formal_notMem_basicSet

theorem vertex_inRow (h : s.Valid p) (r : Fin n) :
    s.vertex (s.current.inRow r) = s.tableau.value r :=
  Basis.along_inRow h.arranged _ _ _ r

theorem direction_inRow (h : s.Valid p) (r : Fin n) :
    s.direction (s.current.inRow r) = s.tableau.coefficient r s.driving :=
  Basis.along_inRow h.arranged _ _ _ r

theorem augmented_edge (h : s.Valid p) (a : Perturbed n) :
    p.Augmented Perturbed.power (s.edge a) := by
  have hdirection := h.augmented_direction.map (LinearMap.toSpanSingleton ℚ (Perturbed n) a)
  refine ⟨fun i => ?_⟩
  have hrow := hdirection.row i
  simp only [Function.comp_apply, Pi.zero_apply, map_zero, smul_zero, zero_add, add_zero,
    LinearMap.toSpanSingleton_apply] at hrow
  simp only [edge, h.isVertex_vertex.augmented.row i, hrow, smul_add, Finset.sum_add_distrib]
  abel

/-- The edge leads to the vertex of the next state. -/
theorem vertex_eq_edge (h : s.Valid p) (hstep : s.step = .pivoted t) :
    t.vertex = s.edge (t.vertex s.entering) := by
  have hset := (h.basicSet_of_pivoted hstep).2
  have hvertex := hset ▸ (h.step hstep).isVertex_vertex
  funext u
  unfold edge
  by_cases hu : u ∈ s.current.basicSet
  · obtain ⟨r, rfl⟩ := Basis.mem_basicSet.1 hu
    rw [h.eq_of_isVertex s.driving hvertex r, h.vertex_inRow, h.direction_inRow, entering]
  · rw [h.isVertex_vertex.zero u hu, zero_add]
    by_cases hne : u = s.entering
    · rw [hne, h.direction_entering, one_smul]
    · rw [direction_of_notMem hu hne, zero_smul]
      refine hvertex.zero u fun hmem => ?_
      rcases Finset.mem_insert.1 hmem with heq | hmem
      · exact hne heq
      · exact hu (Finset.mem_of_mem_erase hmem)

/-- **Inside an edge** the basic variables and the driving one are positive. -/
theorem edge_pos (h : s.Valid p) (hstep : s.step = .pivoted t) (ha : 0 < a)
    (hlt : a < t.vertex s.entering) {u : Variable n}
    (hu : u ∈ s.current.basicSet ∨ u = s.entering) : 0 < s.edge a u := by
  unfold edge
  rcases hu with hu | rfl
  · have hpos := h.isVertex_vertex.pos u hu
    rcases le_or_gt 0 (s.direction u) with hdirection | hdirection
    · exact add_pos_of_pos_of_nonneg hpos (smul_nonneg hdirection ha.le)
    · have hnext := (h.step hstep).isComplementary_vertex.nonneg u
      rw [h.vertex_eq_edge hstep, edge] at hnext
      exact hnext.trans_lt (add_lt_add_right (smul_lt_smul_of_neg_left hlt hdirection) _)
  · rw [h.isVertex_vertex.zero _ h.entering_notMem, zero_add, h.direction_entering, one_smul]
    exact ha

/-- **The points inside an edge are complementary.** -/
theorem isComplementary_edge (h : s.Valid p) (hstep : s.step = .pivoted t) (ha : 0 < a)
    (hlt : a < t.vertex s.entering) : p.IsComplementary (s.edge a) := by
  have hreleased := (step_eq_pivoted_iff.1 hstep).1
  have hzero : ∀ u, u ∉ s.current.basicSet → u ≠ s.entering → s.edge a u = 0 := by
    intro u hu hne
    rw [edge, h.isVertex_vertex.zero u hu, direction_of_notMem hu hne, zero_smul, add_zero]
  refine ⟨h.augmented_edge a, fun u => ?_, fun u => ?_, ?_⟩
  · by_cases hu : u ∈ s.current.basicSet ∨ u = s.entering
    · exact (h.edge_pos hstep ha hlt hu).le
    · rw [not_or] at hu
      exact (hzero u hu.1 hu.2).ge
  · unfold edge
    refine (h.eq_zero_or_partner_eq_zero hreleased h.isVertex_vertex u).imp ?_ ?_
    · rintro ⟨hx, hd⟩
      rw [hx, hd, zero_smul, add_zero]
    · rintro ⟨hx, hd⟩
      rw [hx, hd, zero_smul, add_zero]
  · exact hzero _ h.arranged.formal_notMem_basicSet
      (Ne.symm (h.arranged.inColumn_ne_formal s.driving))

/-- An edge on which a variable falls below a value has a point where it takes that value. -/
theorem exists_edge_eq (h : s.Valid p) (hstep : s.step = .pivoted t) {u : Variable n}
    {v : Perturbed n} (hbelow : t.vertex u < v) (habove : v < s.vertex u) :
    ∃ a, 0 < a ∧ a < t.vertex s.entering ∧ s.edge a u = v := by
  have hend : t.vertex u = s.vertex u + s.direction u • t.vertex s.entering :=
    congrFun (h.vertex_eq_edge hstep) u
  have hfalls : s.direction u < 0 := by
    by_contra hrises
    have hentering := (h.step hstep).isComplementary_vertex.nonneg s.entering
    have hlt := hbelow.trans habove
    rw [hend] at hlt
    exact (le_add_of_nonneg_right (smul_nonneg (not_lt.1 hrises) hentering)).not_gt hlt
  have hscaled : s.direction u • (s.direction u)⁻¹ • (v - s.vertex u) = v - s.vertex u := by
    rw [smul_smul, mul_inv_cancel₀ hfalls.ne, one_smul]
  refine ⟨(s.direction u)⁻¹ • (v - s.vertex u), ?_, ?_, ?_⟩
  · exact smul_pos_of_neg_of_neg (inv_lt_zero.2 hfalls) (sub_neg.2 habove)
  · refine (smul_lt_smul_iff_of_neg_left hfalls).1 ?_
    rw [hscaled, lt_sub_iff_add_lt', ← hend]
    exact hbelow
  · rw [edge, hscaled, add_sub_cancel]

/-- Every pair of the problem has a basic variable or the driving one. -/
theorem exists_mem_pair (h : s.Valid p) (hreleased : s.isReleased = false) (k : Fin n) :
    ∃ u, (u = Variable.w k.castSucc ∨ u = Variable.z k.castSucc) ∧
      (u ∈ s.current.basicSet ∨ u = s.entering) := by
  have hlinked := h.linked hreleased
  obtain ⟨k', hmissing⟩ := hlinked.exists_missing
  by_cases hk : k = k'
  · obtain ⟨i, hentering⟩ := h.entering_eq_w_or_z hreleased
    -- the pair of the driving variable is the one without a basic variable
    have hi : i = k' := by
      refine (hmissing i).1 ?_
      have hnotMem := h.entering_notMem
      have hleaving := h.leaving_notMem
      rw [← partner_partner s.leaving, ← h.entering_eq hreleased] at hleaving
      rcases hentering with heq | heq <;> rw [heq] at hnotMem hleaving
      · exact ⟨hnotMem, hleaving⟩
      · exact ⟨hleaving, hnotMem⟩
    rw [hk, ← hi]
    exact ⟨s.entering, hentering, Or.inr rfl⟩
  · by_contra hnone
    refine hk ((hmissing k).1 ⟨fun hw => hnone ?_, fun hz => hnone ?_⟩)
    · exact ⟨_, Or.inl rfl, Or.inl hw⟩
    · exact ⟨_, Or.inr rfl, Or.inl hz⟩

end Valid

end State

/-! ## From the top to zero -/

/-- Where the artificial variable makes up for every negative constant, it gives a complementary
solution without any `z_j`. -/
theorem Lcp.exists_isComplementary_slack {a : Perturbed n} (ha : 0 ≤ a)
    (hslack : ∀ r, 0 ≤ p.loaded.value r + a) :
    ∃ x, p.IsComplementary x ∧ x (artificial n) = a ∧
      ∀ r : Fin n, x (.w r.castSucc) = p.loaded.value r + a := by
  have hb : (Basis.initial n).Arranged (Fin.last n) := Basis.arranged_initial
  have halong := p.isDictionary_initial.augmented_along hb Perturbed.power (Fin.last n) a
  simp only [coefficient_loaded_last, one_smul, ← value_eq_valueAt] at halong
  have hcolumn : (Basis.initial n).inColumn (Fin.last n) = artificial n :=
    Basis.inColumn_initial _
  have hartificial : (Basis.initial n).along (fun r => p.loaded.value r + a) (Fin.last n) a
      (artificial n) = a := by
    rw [← hcolumn]
    exact Basis.along_inColumn hb _ _ _
  have hw : ∀ r : Fin n, (Basis.initial n).along (fun r => p.loaded.value r + a) (Fin.last n) a
      (.w r.castSucc) = p.loaded.value r + a := by
    intro r
    rw [← Basis.inRow_initial r, Basis.along_inRow hb]
  have hzero : ∀ u, (∀ r : Fin n, u ≠ .w r.castSucc) → u ≠ artificial n →
      (Basis.initial n).along (fun r => p.loaded.value r + a) (Fin.last n) a u = 0 := by
    intro u hu hne
    refine Basis.along_of_ne _ _ _ (fun hmem => ?_) (hcolumn ▸ hne)
    obtain ⟨r, rfl⟩ := Basis.mem_basicSet.1 hmem
    exact hu r (Basis.inRow_initial r)
  have hformal := hzero (formal n) (fun r heq => r.castSucc_lt_last.ne' (Variable.w.inj heq)) nofun
  have hz : ∀ r : Fin n, _ = (0 : Perturbed n) := fun r =>
    hzero (.z r.castSucc) nofun fun heq => r.castSucc_lt_last.ne (Variable.z.inj heq)
  refine ⟨_, ⟨halong, fun u => ?_, fun u => ?_, hformal⟩, hartificial, hw⟩
  · cases u using rowCases with
    | artificial => exact hartificial.symm ▸ ha
    | formal => exact hformal.ge
    | w r => exact (hw r).symm ▸ hslack r
    | z r => exact (hz r).ge
  · cases u using rowCases with
    | artificial => exact Or.inr hformal
    | formal => exact Or.inl hformal
    | w r => exact Or.inr (hz r)
    | z r => exact Or.inl (hz r)

/-- In the first state the artificial variable makes up for the least constant. -/
theorem Lcp.vertex_start {s : State ℚ n} (h : p.start? = some s) :
    ∃ row, p.loaded.value row + s.vertex (artificial n) = 0 ∧
      ∀ r, p.loaded.value row ≤ p.loaded.value r := by
  obtain ⟨row, rfl, -, hle⟩ := le_of_start_eq_some h
  have hvertex := (State.valid_of_start h).isVertex_vertex
  have hz : ∀ j : Fin n, Variable.z j.castSucc ∉
      (State.start p.loaded row).current.basicSet := by
    intro j hj
    rcases State.mem_basicSet_start.1 hj with heq | ⟨r, -, heq⟩
    · exact j.castSucc_lt_last.ne (Variable.z.inj heq)
    · nomatch heq
  have hrow : Variable.w row.castSucc ∉ (State.start p.loaded row).current.basicSet := by
    intro hmem
    rcases State.mem_basicSet_start.1 hmem with heq | ⟨r, hr, heq⟩
    · nomatch heq
    · exact hr (by simpa using heq.symm)
  refine ⟨row, ?_, hle⟩
  have hslack := hvertex.augmented.slack_eq (fun j => hvertex.zero _ (hz j)) row
  rw [hvertex.zero _ hrow, ← value_loaded] at hslack
  exact hslack.symm

/-- **The top.**  In the first state the artificial variable has the greatest value that it has in
any complementary solution in which both variables of some pair are zero. -/
theorem Lcp.IsComplementary.artificial_le {x : Variable n → Perturbed n} (hx : p.IsComplementary x)
    (hdetermined : p.IsDetermined) {k : Fin n} (hk : x (.w k.castSucc) = 0) {s : State ℚ n}
    (hs : p.start? = some s) : x (artificial n) ≤ s.vertex (artificial n) := by
  obtain ⟨row, hrow, hle⟩ := Lcp.vertex_start hs
  by_contra hgreater
  rw [not_le] at hgreater
  have hpos : ∀ r, 0 < p.loaded.value r + x (artificial n) := by
    intro r
    rw [← hrow]
    exact add_lt_add_of_le_of_lt (hle r) hgreater
  obtain ⟨y, hy, hartificial, hslack⟩ :=
    Lcp.exists_isComplementary_slack (hx.nonneg (artificial n)) fun r => (hpos r).le
  rw [hdetermined x y hx hy hartificial.symm, hslack] at hk
  exact (hpos k).ne' hk

/-! ## Every vertex is met -/

/-- A sequence that starts at or above a value and ends below falls below it at some place. -/
theorem exists_crossing {β : Type} [LinearOrder β] (f : Nat → β) {b : β} {m : Nat}
    (hfirst : b ≤ f 0) (hlast : f m < b) : ∃ i < m, f (i + 1) < b ∧ b ≤ f i := by
  induction m with
  | zero => exact absurd hlast hfirst.not_gt
  | succ m ih =>
    by_cases hm : f m < b
    · obtain ⟨i, hi, hcrossing⟩ := ih hm
      exact ⟨i, hi.trans m.lt_succ_self, hcrossing⟩
    · exact ⟨m, m.lt_succ_self, hlast, not_lt.1 hm⟩

namespace Lcp.Path

variable {m : Nat} {t : Nat → State ℚ n}

/-- On the edge on which the artificial variable falls below a value it takes that value, so a
complementary solution with this value has a nonzero variable in every pair. -/
theorem exists_ne_zero_of_crossing (h : p.Path m t) (hdetermined : p.IsDetermined) {i : Nat}
    (hi : i < m) {x : Variable n → Perturbed n} (hx : p.IsComplementary x)
    (hbelow : (t (i + 1)).vertex (artificial n) < x (artificial n))
    (habove : x (artificial n) < (t i).vertex (artificial n)) (k : Fin n) :
    x (.w k.castSucc) ≠ 0 ∨ x (.z k.castSucc) ≠ 0 := by
  have hvalid := h.valid hi.le
  have hstep := h.step i hi
  have hreleased := h.isReleased_eq_false hi
  obtain ⟨a, ha, hlt, hvalue⟩ := hvalid.exists_edge_eq hstep hbelow habove
  have hedge : (t i).edge a = x :=
    hdetermined _ _ (hvalid.isComplementary_edge hstep ha hlt) hx hvalue
  obtain ⟨u, hpair, hu⟩ := hvalid.exists_mem_pair hreleased k
  have hpos := hvalid.edge_pos hstep ha hlt hu
  rw [hedge] at hpos
  rcases hpair with rfl | rfl
  · exact Or.inl hpos.ne'
  · exact Or.inr hpos.ne'

/-- **Every vertex is met** by a run that ends with a solution, if the value of the artificial
variable determines complementary solutions. -/
theorem exists_basicSet_eq (h : p.Path m t) (hend : (t m).isReleased = true)
    (hdetermined : p.IsDetermined) {k : Fin n} {T : Finset (Fin n)}
    (hvertex : p.HasVertex (choice k T)) : ∃ i < m, (t i).current.basicSet = choice k T := by
  obtain ⟨x, hx⟩ := hvertex
  have hcomplementary := hx.isComplementary (fun _ => partner_notMem_choice)
    (formal_notMem_choice k T)
  have hw : x (.w k.castSucc) = 0 := hx.zero _ fun hmem => (w_mem_choice.1 hmem).1 rfl
  have hz : x (.z k.castSucc) = 0 := hx.zero _ fun hmem => (z_mem_choice.1 hmem).1 rfl
  have hlast : (t m).vertex (artificial n) < x (artificial n) := by
    have hnotMem : artificial n ∉ (t m).current.basicSet := by
      rw [(h.valid le_rfl).artificial_mem_iff, hend]
      simp
    rw [(h.valid le_rfl).isVertex_vertex.zero _ hnotMem]
    exact hx.pos _ (artificial_mem_choice k T)
  obtain ⟨i, hi, hbelow, habove⟩ := exists_crossing (fun i => (t i).vertex (artificial n))
    (hcomplementary.artificial_le hdetermined hw h.start) hlast
  refine ⟨i, hi, ?_⟩
  rcases habove.eq_or_lt with heq | hlt
  · -- the value of the artificial variable tells that this is the vertex of the state
    have hvalid := h.valid hi.le
    have hsame := hdetermined _ _ hvalid.isComplementary_vertex hcomplementary heq.symm
    ext u
    constructor
    · intro hu
      by_contra hmem
      exact (hvalid.isVertex_vertex.pos u hu).ne' ((congrFun hsame u).trans (hx.zero u hmem))
    · intro hu
      by_contra hmem
      exact (hx.pos u hu).ne' ((congrFun hsame u).symm.trans (hvalid.isVertex_vertex.zero u hmem))
  · rcases h.exists_ne_zero_of_crossing hdetermined hi hcomplementary hbelow hlt k with hne | hne
    · exact absurd hw hne
    · exact absurd hz hne

end Lcp.Path

/-! ## The number of pivots -/

/-- A choice tells which pair it leaves out and which `z_i` it takes. -/
theorem choice_injOn :
    Set.InjOn (fun c : Σ _ : Fin n, Finset (Fin n) => choice c.1 c.2)
      {c | c.2 ⊆ Finset.univ.erase c.1} := by
  rintro ⟨k, T⟩ hT ⟨k', T'⟩ hT' (heq : choice k T = choice k' T')
  obtain rfl : k = k' := by
    by_contra hne
    by_cases hk : k ∈ T'
    · have hmem : Variable.z k.castSucc ∈ choice k' T' := z_mem_choice.2 ⟨hne, hk⟩
      rw [← heq] at hmem
      exact (z_mem_choice.1 hmem).1 rfl
    · have hmem : Variable.w k.castSucc ∈ choice k' T' := w_mem_choice.2 ⟨hne, hk⟩
      rw [← heq] at hmem
      exact (w_mem_choice.1 hmem).1 rfl
  have hmem : ∀ i, i ∈ T ↔ i ∈ T' := by
    intro i
    constructor
    · intro hi
      have hz := z_mem_choice.2 ⟨Finset.ne_of_mem_erase (hT hi), hi⟩
      rw [heq] at hz
      exact (z_mem_choice.1 hz).2
    · intro hi
      have hz := z_mem_choice.2 ⟨Finset.ne_of_mem_erase (hT' hi), hi⟩
      rw [← heq] at hz
      exact (z_mem_choice.1 hz).2
  rw [Finset.ext hmem]

open Classical in
/-- The choices that have a vertex: the pair left out, and the `z_i` that are taken. -/
noncomputable def Lcp.meetable (p : Lcp ℚ n) : Finset (Σ _ : Fin n, Finset (Fin n)) :=
  (Finset.univ.sigma fun k => (Finset.univ.erase k).powerset).filter fun c =>
    p.HasVertex (choice c.1 c.2)

theorem Lcp.mem_meetable {c : Σ _ : Fin n, Finset (Fin n)} :
    c ∈ p.meetable ↔ c.2 ⊆ Finset.univ.erase c.1 ∧ p.HasVertex (choice c.1 c.2) := by
  simp [meetable]

/-- **The number of pivots.**  A run that ends with a solution makes one pivot for each vertex, and
one more in which the artificial variable leaves, if the value of that variable determines
complementary solutions. -/
theorem Lcp.Path.card_meetable {m : Nat} {t : Nat → State ℚ n} (h : p.Path m t)
    (hend : (t m).isReleased = true) (hdetermined : p.IsDetermined) : p.meetable.card = m := by
  have himage : (Finset.range m).image (fun i => (t i).current.basicSet) =
      p.meetable.image fun c => choice c.1 c.2 := by
    ext S
    simp only [Finset.mem_image, Finset.mem_range, Lcp.mem_meetable]
    constructor
    · rintro ⟨i, hi, rfl⟩
      have hvalid := h.valid hi.le
      obtain ⟨k, T, hT, hset⟩ := (hvalid.linked (h.isReleased_eq_false hi)).exists_choice
      exact ⟨⟨k, T⟩, ⟨hT, hset ▸ hvalid.hasVertex⟩, hset.symm⟩
    · rintro ⟨c, ⟨-, hvertex⟩, rfl⟩
      exact h.exists_basicSet_eq hend hdetermined hvertex
  have hchoice : Set.InjOn (fun c : Σ _ : Fin n, Finset (Fin n) => choice c.1 c.2) p.meetable :=
    choice_injOn.mono fun c hc => (Lcp.mem_meetable.1 hc).1
  calc p.meetable.card
      = (p.meetable.image fun c => choice c.1 c.2).card := (Finset.card_image_of_injOn hchoice).symm
    _ = ((Finset.range m).image fun i => (t i).current.basicSet).card := by rw [himage]
    _ = (Finset.range m).card := Finset.card_image_of_injOn h.injOn_basicSet
    _ = m := Finset.card_range m

end Complementarity
