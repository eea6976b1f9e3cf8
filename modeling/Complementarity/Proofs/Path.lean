import Mathlib.Data.List.GetD
import Complementarity.Proofs.Vertices

/-!
# No basis is met twice

A run in exact arithmetic walks along a path of vertices, and the path does not cross itself.  A
basis in which one pair of partners is wholly nonbasic has at most two neighbours on any path, one
for each variable of the pair, so if two states of a run had the same basic variables, then the run
would have come to them from the same side or from opposite ones.  Going back from both, or forth
from the earlier and back from the later one, leads to states that are closer to the start or to
each other, and finally to a contradiction: the first state has nothing behind it, and no variable
enters right after it has left.

* **what a pivot does to the basic variables** — `State.Bookkept.basicSet_of_pivoted`, and
  `State.Bookkept.basicSet_eq_of_pivoted` in the other direction;
* **no basis is met twice** — `Lcp.Path.basicSet_ne`, and for the trace of a run
  `Lcp.nodup_basicSet_trace`.
-/

namespace Complementarity

open Variable

variable {n : Nat}

/-! ## Neighbours -/

namespace State

variable {α : Type}

/-- The variable that has just left the basis. -/
def leaving (s : State α n) : Variable n := s.current.inColumn s.column

/-- The variable that drives next. -/
def entering (s : State α n) : Variable n := s.current.inColumn s.driving

namespace Bookkept

variable {s t : State α n}

theorem leaving_notMem (h : s.Bookkept) : s.leaving ∉ s.current.basicSet :=
  h.arranged.inColumn_notMem_basicSet _

theorem entering_notMem (h : s.Bookkept) : s.entering ∉ s.current.basicSet :=
  h.arranged.inColumn_notMem_basicSet _

theorem entering_eq (h : s.Bookkept) (hreleased : s.isReleased = false) :
    s.entering = s.leaving.partner :=
  (h.linked hreleased).driving_eq

/-- Until the artificial variable leaves, the driving variable is one of the problem. -/
theorem entering_eq_w_or_z (h : s.Bookkept) (hreleased : s.isReleased = false) :
    ∃ k : Fin n, s.entering = .w k.castSucc ∨ s.entering = .z k.castSucc := by
  cases hentering : s.entering using rowCases with
  | artificial => exact absurd hentering ((h.linked hreleased).inColumn_ne_artificial _)
  | formal => exact absurd hentering (h.arranged.inColumn_ne_formal _)
  | w k => exact ⟨k, Or.inl rfl⟩
  | z k => exact ⟨k, Or.inr rfl⟩

/-- Until the artificial variable leaves, it is basic. -/
theorem artificial_mem_iff (h : s.Bookkept) :
    artificial n ∈ s.current.basicSet ↔ s.isReleased = false := by
  constructor
  · intro hmem
    rw [Bool.eq_false_iff]
    intro hreleased
    refine h.leaving_notMem ?_
    rw [leaving, h.isReleased_iff.1 hreleased]
    exact hmem
  · intro hreleased
    exact Basis.mem_basicSet.2 (h.linked hreleased).artificial_row

variable [Scalar α]

/-- **Forth.**  The driving variable takes the place of the variable that leaves. -/
theorem basicSet_of_pivoted (h : s.Bookkept) (hstep : s.step = .pivoted t) :
    t.leaving ∈ s.current.basicSet ∧
      t.current.basicSet = insert s.entering (s.current.basicSet.erase t.leaving) := by
  obtain ⟨-, row, -, rfl⟩ := step_eq_pivoted_iff.1 hstep
  have hleaving : (s.pivotAt row).leaving = s.current.inRow row := inColumn_current _
  rw [hleaving]
  exact ⟨Basis.mem_basicSet.2 ⟨row, rfl⟩, h.arranged.basicSet_exchange row s.driving⟩

/-- **Back.**  The variable that has left takes the place of the one that drove. -/
theorem basicSet_eq_of_pivoted (h : s.Bookkept) (hstep : s.step = .pivoted t) :
    s.entering ∈ t.current.basicSet ∧
      s.current.basicSet = insert t.leaving (t.current.basicSet.erase s.entering) := by
  obtain ⟨hleaving, hset⟩ := h.basicSet_of_pivoted hstep
  have hentering : s.entering ∉ s.current.basicSet.erase t.leaving :=
    fun hmem => h.entering_notMem (Finset.mem_of_mem_erase hmem)
  rw [hset, Finset.erase_insert hentering, Finset.insert_erase hleaving]
  exact ⟨Finset.mem_insert_self _ _, rfl⟩

end Bookkept

end State

/-! ## Paths -/

/-- The first `m` pivots of a run after the one that starts it, as a sequence of states. -/
structure Lcp.Path (p : Lcp ℚ n) (m : Nat) (t : Nat → State ℚ n) : Prop where
  start : p.start? = some (t 0)
  step : ∀ i < m, (t i).step = .pivoted (t (i + 1))

namespace Lcp.Path

variable {p : Lcp ℚ n} {m : Nat} {t : Nat → State ℚ n}

theorem valid (h : p.Path m t) {i : Nat} (hi : i ≤ m) : (t i).Valid p := by
  induction i with
  | zero => exact State.valid_of_start h.start
  | succ i ih => exact (ih (Nat.le_of_succ_le hi)).step (h.step i hi)

theorem isReleased_eq_false (h : p.Path m t) {i : Nat} (hi : i < m) : (t i).isReleased = false :=
  (State.step_eq_pivoted_iff.1 (h.step i hi)).1

theorem forth (h : p.Path m t) {i : Nat} (hi : i < m) :
    (t (i + 1)).leaving ∈ (t i).current.basicSet ∧
      (t (i + 1)).current.basicSet =
        insert (t i).entering ((t i).current.basicSet.erase (t (i + 1)).leaving) :=
  (h.valid hi.le).basicSet_of_pivoted (h.step i hi)

theorem back (h : p.Path m t) {i : Nat} (hi : i < m) :
    (t i).entering ∈ (t (i + 1)).current.basicSet ∧
      (t i).current.basicSet =
        insert (t (i + 1)).leaving ((t (i + 1)).current.basicSet.erase (t i).entering) :=
  (h.valid hi.le).basicSet_eq_of_pivoted (h.step i hi)

/-- **From the same side.**  If two states have the same basic variables and the same variable has
just left, then neither is the first one, and the states before them have the same basic
variables. -/
theorem exists_before (h : p.Path m t) {i j : Nat} (hi : i ≤ m) (hj : j < m)
    (heq : (t i).current.basicSet = (t (j + 1)).current.basicSet)
    (hleaving : (t (j + 1)).leaving = (t i).leaving) :
    ∃ k, i = k + 1 ∧ (t k).current.basicSet = (t j).current.basicSet := by
  obtain ⟨hmem, hset⟩ := h.back hj
  rw [← heq] at hmem hset
  rw [hleaving] at hset
  have hvertex := hset ▸ (h.valid hj.le).hasVertex
  cases i with
  | zero => exact absurd hvertex (State.not_hasVertex_of_start h.start hmem)
  | succ k =>
    obtain ⟨hmem', hset'⟩ := h.back hi
    have hvertex' := hset' ▸ (h.valid (Nat.le_of_succ_le hi)).hasVertex
    have hsame := (h.valid hi).eq_of_hasVertex (t (k + 1)).column hmem' hmem hvertex' hvertex
    exact ⟨k, rfl, by rw [hset, hset', hsame]⟩

/-- **From opposite sides.**  If two states have the same basic variables, and what drives the one
has just left the other, then the state after the one and the state before the other have the same
basic variables, and the variable that leaves the one is the variable that drove the other. -/
theorem eq_after (h : p.Path m t) {i j : Nat} (hi : i < m) (hj : j < m)
    (heq : (t i).current.basicSet = (t (j + 1)).current.basicSet)
    (hleaving : (t (j + 1)).leaving = (t i).entering) :
    (t (i + 1)).leaving = (t j).entering ∧
      (t (i + 1)).current.basicSet = (t j).current.basicSet := by
  obtain ⟨hmem, hset⟩ := h.back hj
  rw [← heq] at hmem hset
  rw [hleaving] at hset
  obtain ⟨hmem', hset'⟩ := h.forth hi
  have hvertex := hset ▸ (h.valid hj.le).hasVertex
  have hvertex' := hset' ▸ (h.valid hi).hasVertex
  have hsame := (h.valid hi.le).eq_of_hasVertex (t i).driving hmem' hmem hvertex' hvertex
  exact ⟨hsame, by rw [hset, hset', hsame]⟩

/-- **No basis is met twice.** -/
theorem basicSet_ne (h : p.Path m t) {j : Nat} (hj : j ≤ m) {i : Nat} (hij : i < j) :
    (t i).current.basicSet ≠ (t j).current.basicSet := by
  induction j using Nat.strong_induction_on generalizing i with
  | _ j ih =>
    intro heq
    obtain ⟨j, rfl⟩ : ∃ k, j = k + 1 := Nat.exists_eq_succ_of_ne_zero (Nat.ne_zero_of_lt hij)
    have him : i < m := hij.trans_le hj
    have hvalid := h.valid him.le
    have hvalid' := h.valid hj
    -- the artificial variable is basic in the earlier state, hence in the later one
    have hreleased : (t (j + 1)).isReleased = false := by
      rw [← hvalid'.artificial_mem_iff, ← heq, hvalid.artificial_mem_iff]
      exact h.isReleased_eq_false him
    have hpair : (t (j + 1)).leaving = (t i).leaving ∨ (t (j + 1)).leaving = (t i).entering := by
      refine (hvalid.linked (h.isReleased_eq_false him)).eq_of_partner_notMem ?_ ?_ ?_
      · rw [heq]
        exact hvalid'.leaving_notMem
      · rw [heq, ← hvalid'.entering_eq hreleased]
        exact hvalid'.entering_notMem
      · exact hvalid'.arranged.inColumn_ne_formal _
    rcases hpair with hleaving | hleaving
    · obtain ⟨k, rfl, hbefore⟩ := h.exists_before him.le hj heq hleaving
      exact ih j j.lt_succ_self (Nat.le_of_succ_le hj) (Nat.lt_of_succ_lt_succ hij) hbefore
    · obtain ⟨hsame, hafter⟩ := h.eq_after him hj heq hleaving
      rcases lt_trichotomy (i + 1) j with hlt | rfl | hlt
      · exact ih j j.lt_succ_self (Nat.le_of_succ_le hj) hlt hafter
      · -- the variable that has left would drive at once
        rw [(h.valid (Nat.le_of_succ_le hj)).entering_eq (h.isReleased_eq_false hj)] at hsame
        exact partner_ne _ hsame.symm
      · -- the later state comes right after the earlier one
        obtain rfl : i = j := by omega
        have hmem := (h.back him).1
        rw [← heq] at hmem
        exact hvalid.entering_notMem hmem

end Lcp.Path

/-! ## Traces -/

/-- A trace is a path. -/
theorem Lcp.path_trace {p : Lcp ℚ n} {s : State ℚ n} (h : p.start? = some s) (budget : Nat) :
    p.Path ((s.trace budget).length - 1) fun i => (s.trace budget).getD i s := by
  refine ⟨?_, fun i hi => ?_⟩
  · obtain ⟨rest, hrest⟩ := s.trace_eq_cons budget
    rw [hrest]
    exact h
  · have hchain := List.isChain_iff_getElem.1 (s.isChain_trace budget) i (by omega)
    rw [List.getD_eq_getElem _ _ (by omega), List.getD_eq_getElem _ _ (by omega)]
    exact hchain

/-- The states of a trace have different basic variables. -/
theorem Lcp.nodup_basicSet_trace {p : Lcp ℚ n} {s : State ℚ n} (h : p.start? = some s)
    (budget : Nat) : ((s.trace budget).map fun t => t.current.basicSet).Nodup := by
  rw [List.nodup_iff_pairwise_ne, List.pairwise_map, List.pairwise_iff_getElem]
  intro i j hi hj hij
  have hne := (p.path_trace h budget).basicSet_ne (by omega : j ≤ _) hij
  rwa [List.getD_eq_getElem _ _ hi, List.getD_eq_getElem _ _ hj] at hne

end Complementarity
