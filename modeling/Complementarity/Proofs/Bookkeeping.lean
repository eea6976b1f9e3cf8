import Mathlib.Data.Fintype.Basic
import Mathlib.Data.Fintype.Sum
import Mathlib.Logic.Equiv.Basic
import Mathlib.Tactic.Common
import Complementarity.Basis

/-!
# The bookkeeping stays in order

Which variable stands where depends on the rows in which a run pivots, and on nothing else.  What
is proved here holds for every choice of these rows, hence for every kind of scalar:

* **nobody gets lost** — `holder_exchange`: an exchange swaps two places, so the places keep
  holding every variable once, and the formal partner of the artificial variable never moves;
* **partners find each other** — `Linked`: until the artificial variable leaves, each row knows
  the column of its partner, and the one pair that is wholly nonbasic consists of the variable
  that has just left and the one that drives;
* **a solution is complementary** — `Arranged`: once the artificial variable has left, the partner
  of every other nonbasic variable is basic.

`Linked.arranged_exchange` and `Linked.exchange` are the step, `linked_initial` is the start.
-/

namespace Complementarity

namespace Variable

variable {n : Nat}

/-- The artificial variable. -/
def artificial (n : Nat) : Variable n := .z (Fin.last n)

/-- The formal partner of the artificial variable. -/
def formal (n : Nat) : Variable n := .w (Fin.last n)

@[simp] theorem partner_artificial : (artificial n).partner = formal n := rfl

/-- A variable is the artificial one, its partner, or one of a row. -/
@[elab_as_elim]
theorem rowCases {motive : Variable n → Prop} (artificial : motive (artificial n))
    (formal : motive (formal n)) (w : ∀ i : Fin n, motive (.w i.castSucc))
    (z : ∀ i : Fin n, motive (.z i.castSucc)) (u : Variable n) : motive u := by
  cases u with
  | w i => exact Fin.lastCases formal w i
  | z i => exact Fin.lastCases artificial z i

theorem partner_ne (v : Variable n) : v.partner ≠ v := by
  cases v <;> simp [partner]

theorem partner_injective : Function.Injective (partner : Variable n → Variable n) :=
  fun u v h => by rw [← partner_partner u, h, partner_partner]

theorem isArtificial_iff (v : Variable n) :
    v.isArtificial = true ↔ v = artificial n ∨ v = formal n := by
  rw [isArtificial, decide_eq_true_iff]
  cases v <;> simp [index, artificial, formal]

theorem index_lt_of_proper {v : Variable n} (hv : v.isArtificial = false) : v.index.val < n := by
  rw [isArtificial, decide_eq_false_iff_not] at hv
  exact Fin.val_lt_last hv

theorem eq_or_eq_partner_of_index_eq {u v : Variable n} (h : v.index = u.index) :
    v = u ∨ v = u.partner := by
  cases u <;> cases v <;> simp_all [index, partner]

end Variable

namespace Basis

variable {n : Nat}

open Variable

/-! ## Who stands where -/

/-- The variable that stands in a place: a row, the last one included, or a column. -/
def holder (b : Basis n) : Fin (n + 1) ⊕ Fin (n + 1) → Variable n
  | .inl i => (b.basic.get i).var
  | .inr c => b.inColumn c

/-- **An exchange swaps two places.** -/
theorem holder_exchange (b : Basis n) (r : Fin n) (c : Fin (n + 1)) :
    (b.exchange r c).1.holder = b.holder ∘ Equiv.swap (.inl r.castSucc) (.inr c) := by
  funext place
  rcases place with i | c'
  · show ((b.exchange r c).1.basic.get i).var = _
    by_cases hi : i = r.castSucc
    · subst hi
      rw [Function.comp_apply, Equiv.swap_apply_left]
      exact (inRow_exchange b r r c).trans (if_pos rfl)
    · rw [Function.comp_apply, Equiv.swap_apply_of_ne_of_ne (by simpa using hi) (by simp)]
      simp only [exchange, holder, vector_get_set, Ne.symm hi, if_false]
  · show (b.exchange r c).1.inColumn c' = _
    by_cases hc : c' = c
    · subst hc
      rw [Function.comp_apply, Equiv.swap_apply_right, inColumn_exchange, if_pos rfl]
      rfl
    · rw [Function.comp_apply, Equiv.swap_apply_of_ne_of_ne (by simp) (by simpa using hc),
        inColumn_exchange, if_neg (Ne.symm hc)]
      rfl

/-- The recorded place of the partner, for the variable of row `r'` after an exchange. -/
theorem basic_partner_exchange (b : Basis n) (r r' : Fin n) (c : Fin (n + 1)) :
    ((b.exchange r c).1.basic.get r'.castSucc).partner =
      if r = r' then
        if (b.basic.get r.castSucc).partner = c then c else (b.nonbasic.get c).partner
      else (b.basic.get r'.castSucc).partner := by
  simp only [exchange, vector_get_set, Fin.castSucc_inj]
  split
  · split
    · rfl
    · rfl
  · rfl

/-- The recorded place of the partner, for the variable of column `c'` after an exchange. -/
theorem nonbasic_partner_exchange (b : Basis n) (r : Fin n) (c c' : Fin (n + 1)) :
    ((b.exchange r c).1.nonbasic.get c').partner =
      if c = c' then (b.basic.get r.castSucc).partner
      else if (b.basic.get r.castSucc).partner = c' then c else (b.nonbasic.get c').partner := by
  simp only [exchange, vector_get_set]
  split
  · rfl
  · split
    · rfl
    · rfl

/-- The variables that are basic in a row of the tableau. -/
def basicSet (b : Basis n) : Finset (Variable n) := Finset.univ.image b.inRow

theorem mem_basicSet {b : Basis n} {v : Variable n} : v ∈ b.basicSet ↔ ∃ r, b.inRow r = v := by
  simp [basicSet]

/-! ## The places hold every variable once -/

/-- The places hold every variable once, the formal one in the last place of `basic`.  The partner
of a basic variable is nonbasic, and the partner of a nonbasic variable, but for that of column
`left`, is basic or stands in that column. -/
structure Arranged (b : Basis n) (left : Fin (n + 1)) : Prop where
  bijective : Function.Bijective b.holder
  formal_last : b.holder (.inl (Fin.last n)) = formal n
  partner_inRow : ∀ r, b.inRow r ≠ artificial n → ∃ c, b.inColumn c = (b.inRow r).partner
  partner_inColumn : ∀ c, c ≠ left → b.inColumn c ≠ artificial n →
    (b.inColumn c).partner = b.inColumn left ∨ ∃ r, b.inRow r = (b.inColumn c).partner

namespace Arranged

variable {b : Basis n} {left : Fin (n + 1)}

theorem inRow_injective (h : b.Arranged left) : Function.Injective b.inRow := by
  intro r r' hr
  have hplace : (Sum.inl r.castSucc : Fin (n + 1) ⊕ Fin (n + 1)) = .inl r'.castSucc :=
    h.bijective.1 hr
  simpa using hplace

theorem inColumn_injective (h : b.Arranged left) : Function.Injective b.inColumn := by
  intro c c' hc
  have hplace : (Sum.inr c : Fin (n + 1) ⊕ Fin (n + 1)) = .inr c' := h.bijective.1 hc
  simpa using hplace

theorem inRow_ne_inColumn (h : b.Arranged left) (r : Fin n) (c : Fin (n + 1)) :
    b.inRow r ≠ b.inColumn c := by
  intro hr
  have hplace : (Sum.inl r.castSucc : Fin (n + 1) ⊕ Fin (n + 1)) = .inr c := h.bijective.1 hr
  nomatch hplace

theorem inRow_ne_formal (h : b.Arranged left) (r : Fin n) : b.inRow r ≠ formal n := by
  intro hr
  have hplace : (Sum.inl r.castSucc : Fin (n + 1) ⊕ Fin (n + 1)) = .inl (Fin.last n) :=
    h.bijective.1 (hr.trans h.formal_last.symm)
  exact r.castSucc_lt_last.ne (Sum.inl.inj hplace)

theorem inColumn_ne_formal (h : b.Arranged left) (c : Fin (n + 1)) : b.inColumn c ≠ formal n := by
  intro hc
  have hplace : (Sum.inr c : Fin (n + 1) ⊕ Fin (n + 1)) = .inl (Fin.last n) :=
    h.bijective.1 (hc.trans h.formal_last.symm)
  nomatch hplace

/-- Every variable but the formal one stands in a row or in a column. -/
theorem exists_place (h : b.Arranged left) {v : Variable n} (hv : v ≠ formal n) :
    (∃ r, b.inRow r = v) ∨ ∃ c, b.inColumn c = v := by
  obtain ⟨place, rfl⟩ := h.bijective.2 v
  rcases place with i | c
  · cases i using Fin.lastCases with
    | last => exact absurd h.formal_last hv
    | cast r => exact Or.inl ⟨r, rfl⟩
  · exact Or.inr ⟨c, rfl⟩

theorem isArtificial_inColumn (h : b.Arranged left) (c : Fin (n + 1)) :
    (b.inColumn c).isArtificial = true ↔ b.inColumn c = artificial n := by
  rw [isArtificial_iff]
  exact or_iff_left (h.inColumn_ne_formal c)

/-- A variable is nonbasic exactly if it stands in no row. -/
theorem inColumn_notMem_basicSet (h : b.Arranged left) (c : Fin (n + 1)) :
    b.inColumn c ∉ b.basicSet := by
  rw [mem_basicSet]
  rintro ⟨r, hr⟩
  exact h.inRow_ne_inColumn r c hr

theorem formal_notMem_basicSet (h : b.Arranged left) : formal n ∉ b.basicSet := by
  rw [mem_basicSet]
  rintro ⟨r, hr⟩
  exact h.inRow_ne_formal r hr

/-- No two partners are both basic. -/
theorem partner_notMem_basicSet (h : b.Arranged left) {v : Variable n} (hv : v ∈ b.basicSet) :
    v.partner ∉ b.basicSet := by
  obtain ⟨r, rfl⟩ := mem_basicSet.1 hv
  by_cases hr : b.inRow r = artificial n
  · rw [hr, partner_artificial]
    exact h.formal_notMem_basicSet
  · obtain ⟨c, hc⟩ := h.partner_inRow r hr
    rw [← hc]
    exact h.inColumn_notMem_basicSet c

/-- The basic variables after an exchange. -/
theorem basicSet_exchange (h : b.Arranged left) (r : Fin n) (c : Fin (n + 1)) :
    (b.exchange r c).1.basicSet = insert (b.inColumn c) (b.basicSet.erase (b.inRow r)) := by
  ext v
  simp only [mem_basicSet, inRow_exchange, Finset.mem_insert, Finset.mem_erase]
  constructor
  · rintro ⟨r', rfl⟩
    by_cases hr : r = r'
    · exact Or.inl (if_pos hr)
    · rw [if_neg hr]
      exact Or.inr ⟨fun heq => hr (h.inRow_injective heq).symm, r', rfl⟩
  · rintro (rfl | ⟨hne, r', rfl⟩)
    · exact ⟨r, if_pos rfl⟩
    · exact ⟨r', if_neg fun hr => hne (congrArg b.inRow hr.symm)⟩

end Arranged

/-! ## Partners find each other -/

/-- The order of the bookkeeping until the artificial variable leaves: that variable is basic, each
other row records the column of its partner, the variable of column `driving` is the partner of
that of column `left`, and its record says so. -/
structure Linked (b : Basis n) (left driving : Fin (n + 1)) : Prop extends b.Arranged left where
  artificial_row : ∃ r, b.inRow r = artificial n
  partner_row : ∀ r, b.inRow r ≠ artificial n →
    b.inColumn (b.basic.get r.castSucc).partner = (b.inRow r).partner
  driving_eq : b.inColumn driving = (b.inColumn left).partner
  driving_record : (b.nonbasic.get driving).partner = left

namespace Linked

variable {b : Basis n} {left driving : Fin (n + 1)}

theorem inColumn_ne_artificial (h : b.Linked left driving) (c : Fin (n + 1)) :
    b.inColumn c ≠ artificial n := by
  obtain ⟨r, hr⟩ := h.artificial_row
  rw [← hr]
  exact (h.inRow_ne_inColumn r c).symm

theorem driving_ne_left (h : b.Linked left driving) : driving ≠ left := by
  intro heq
  have := h.driving_eq
  rw [heq] at this
  exact partner_ne _ this.symm

/-- The one pair that is wholly nonbasic stands in the columns `left` and `driving`. -/
theorem eq_of_partner_notMem (h : b.Linked left driving) {v : Variable n}
    (hv : v ∉ b.basicSet) (hpartner : v.partner ∉ b.basicSet) (hformal : v ≠ formal n) :
    v = b.inColumn left ∨ v = b.inColumn driving := by
  rcases h.exists_place hformal with ⟨r, rfl⟩ | ⟨c, rfl⟩
  · exact absurd (mem_basicSet.2 ⟨r, rfl⟩) hv
  · by_cases hc : c = left
    · exact Or.inl (congrArg b.inColumn hc)
    · rcases h.partner_inColumn c hc (h.inColumn_ne_artificial c) with heq | ⟨r, hr⟩
      · refine Or.inr ?_
        rw [h.driving_eq, ← heq, partner_partner]
      · exact absurd (mem_basicSet.2 ⟨r, hr⟩) hpartner

/-- Until the artificial variable leaves, one pair is wholly nonbasic and no other. -/
theorem exists_missing (h : b.Linked left driving) : ∃ k : Fin n, ∀ i : Fin n,
    Variable.w i.castSucc ∉ b.basicSet ∧ Variable.z i.castSucc ∉ b.basicSet ↔ i = k := by
  have hproper : (b.inColumn left).isArtificial = false := by
    rw [Bool.eq_false_iff, ne_eq, h.isArtificial_inColumn]
    exact h.inColumn_ne_artificial left
  obtain ⟨k, hk⟩ : ∃ k : Fin n, (b.inColumn left).index = k.castSucc :=
    ⟨⟨_, index_lt_of_proper hproper⟩, rfl⟩
  have hmissing : ∀ v : Variable n, v.index = k.castSucc → v ∉ b.basicSet := by
    intro v hv
    rcases eq_or_eq_partner_of_index_eq (hv.trans hk.symm) with rfl | rfl
    · exact h.inColumn_notMem_basicSet left
    · rw [← h.driving_eq]
      exact h.inColumn_notMem_basicSet driving
  refine ⟨k, fun i => ⟨fun ⟨hw, hz⟩ => ?_, ?_⟩⟩
  · have hformal : Variable.w i.castSucc ≠ formal n :=
      fun heq => i.castSucc_lt_last.ne (Variable.w.inj heq)
    refine Fin.castSucc_injective n ?_
    rcases h.eq_of_partner_notMem hw hz hformal with heq | heq
    · exact (congrArg index heq).trans hk
    · rw [h.driving_eq] at heq
      exact (congrArg index heq).trans ((index_partner _).trans hk)
  · rintro rfl
    exact ⟨hmissing _ rfl, hmissing _ rfl⟩

/-- The variable that drives is not the partner of a basic one. -/
theorem partner_ne_driving (h : b.Linked left driving) {r : Fin n} {c : Fin (n + 1)}
    (hc : b.inColumn c = (b.inRow r).partner) : driving ≠ c := by
  rintro rfl
  rw [h.driving_eq] at hc
  exact h.inRow_ne_inColumn r left (partner_injective hc).symm

/-- **A step, first part.**  Whatever row is exchanged, the places stay arranged. -/
theorem arranged_exchange (h : b.Linked left driving) (r : Fin n) :
    (b.exchange r driving).1.Arranged driving := by
  refine ⟨?_, ?_, ?_, ?_⟩
  · rw [holder_exchange]
    exact h.bijective.comp (Equiv.bijective _)
  · rw [holder_exchange, Function.comp_apply, Equiv.swap_apply_of_ne_of_ne]
    · exact h.formal_last
    · simpa using r.castSucc_lt_last.ne'
    · simp
  · intro r' hr'
    rw [inRow_exchange] at hr' ⊢
    by_cases hr : r = r'
    · refine ⟨left, ?_⟩
      rw [if_pos hr, inColumn_exchange, if_neg h.driving_ne_left, h.driving_eq, partner_partner]
    · rw [if_neg hr] at hr' ⊢
      obtain ⟨c, hc⟩ := h.toArranged.partner_inRow r' hr'
      exact ⟨c, by rw [inColumn_exchange, if_neg (h.partner_ne_driving hc), hc]⟩
  · intro c hc _
    simp only [inColumn_exchange, if_neg (Ne.symm hc), if_true, inRow_exchange]
    -- the partner of column `left` has just become basic; any other partner was basic before
    by_cases hleft : c = left
    · refine Or.inr ⟨r, ?_⟩
      rw [if_pos rfl, hleft, h.driving_eq]
    · rcases h.partner_inColumn c hleft (h.inColumn_ne_artificial c) with heq | ⟨r', hr'⟩
      · refine absurd (h.inColumn_injective ?_) hc
        rw [h.driving_eq, ← heq, partner_partner]
      · by_cases hr : r = r'
        · exact Or.inl (hr ▸ hr'.symm)
        · exact Or.inr ⟨r', by rw [if_neg hr, hr']⟩

/-- **A step, second part.**  Unless the artificial variable leaves, the partners find each other
after an exchange too. -/
theorem exchange (h : b.Linked left driving) (r : Fin n) (hstays : b.inRow r ≠ artificial n) :
    (b.exchange r driving).1.Linked driving (b.exchange r driving).2 := by
  have hnext : (b.exchange r driving).2 = (b.basic.get r.castSucc).partner := rfl
  have hpartner : b.inColumn (b.basic.get r.castSucc).partner = (b.inRow r).partner :=
    h.partner_row r hstays
  -- the partner of the leaving variable drives next, so it is neither of the exchanged ones
  have hne : driving ≠ (b.basic.get r.castSucc).partner := h.partner_ne_driving hpartner
  refine ⟨h.arranged_exchange r, ?_, ?_, ?_, ?_⟩
  · obtain ⟨r', hr'⟩ := h.artificial_row
    have hr : r ≠ r' := fun heq => hstays (heq ▸ hr')
    exact ⟨r', by rw [inRow_exchange, if_neg hr, hr']⟩
  · intro r' hr'
    rw [inRow_exchange] at hr'
    rw [basic_partner_exchange, inRow_exchange, inColumn_exchange]
    by_cases hr : r = r'
    · rw [if_pos hr, if_pos hr, if_neg hne.symm, h.driving_record, if_neg h.driving_ne_left,
        h.driving_eq, partner_partner]
    · rw [if_neg hr] at hr' ⊢
      have hcolumn := h.partner_row r' hr'
      rw [if_neg hr, if_neg (h.partner_ne_driving hcolumn), hcolumn]
  · rw [hnext, inColumn_exchange, inColumn_exchange, if_neg hne, if_pos rfl, hpartner]
  · rw [hnext, nonbasic_partner_exchange, if_neg hne, if_pos rfl]

end Linked

/-! ## The start -/

theorem holder_initial_bijective : Function.Bijective (initial n).holder := by
  have hl : ∀ i, (initial n).holder (.inl i) = .w i := fun i => by simp [holder, initial]
  have hr : ∀ c, (initial n).holder (.inr c) = .z c := fun c => inColumn_initial c
  constructor
  · rintro (i | c) (j | d) heq
    · rw [hl, hl] at heq
      exact congrArg Sum.inl (Variable.w.inj heq)
    · rw [hl, hr] at heq
      simp at heq
    · rw [hr, hl] at heq
      simp at heq
    · rw [hr, hr] at heq
      exact congrArg Sum.inr (Variable.z.inj heq)
  · rintro (i | c)
    · exact ⟨.inl i, hl i⟩
    · exact ⟨.inr c, hr c⟩

theorem arranged_initial : (initial n).Arranged (Fin.last n) := by
  refine ⟨holder_initial_bijective, ?_, ?_, ?_⟩
  · simp [holder, initial, formal]
  · intro r _
    exact ⟨r.castSucc, by rw [inRow_initial, inColumn_initial]; rfl⟩
  · intro c hc _
    cases c using Fin.lastCases with
    | last => exact absurd rfl hc
    | cast r => exact Or.inr ⟨r, by rw [inRow_initial, inColumn_initial]; rfl⟩

/-- **The start.**  After the artificial variable has entered in some row, the partners find each
other. -/
theorem linked_initial (r : Fin n) :
    ((initial n).exchange r (Fin.last n)).1.Linked (Fin.last n)
      ((initial n).exchange r (Fin.last n)).2 := by
  have hrecord : ∀ i, ((initial n).basic.get i).partner = i := fun i => by simp [initial]
  have hnext : ((initial n).exchange r (Fin.last n)).2 = r.castSucc := hrecord r.castSucc
  have hne : Fin.last n ≠ r.castSucc := r.castSucc_lt_last.ne'
  have hrow : ∀ r', r' ≠ r → ((initial n).exchange r (Fin.last n)).1.inColumn r'.castSucc =
      (((initial n).exchange r (Fin.last n)).1.inRow r').partner := by
    intro r' hr
    rw [inRow_exchange, inColumn_exchange, if_neg hr.symm, if_neg r'.castSucc_lt_last.ne',
      inColumn_initial, inRow_initial]
    rfl
  have hartificial : ((initial n).exchange r (Fin.last n)).1.inRow r = artificial n := by
    rw [inRow_exchange, if_pos rfl, inColumn_initial]
    rfl
  refine ⟨⟨?_, ?_, ?_, ?_⟩, ⟨r, hartificial⟩, ?_, ?_, ?_⟩
  · rw [holder_exchange]
    exact holder_initial_bijective.comp (Equiv.bijective _)
  · rw [holder_exchange, Function.comp_apply,
      Equiv.swap_apply_of_ne_of_ne (by simpa using hne) (by simp)]
    exact arranged_initial.formal_last
  · intro r' hr'
    exact ⟨r'.castSucc, hrow r' fun heq => hr' (heq ▸ hartificial)⟩
  · intro c hc _
    simp only [inColumn_exchange, inRow_exchange, if_neg (Ne.symm hc), if_true, inColumn_initial,
      inRow_initial]
    cases c using Fin.lastCases with
    | last => exact absurd rfl hc
    | cast r' =>
      by_cases hr : r = r'
      · exact Or.inl (hr ▸ rfl)
      · exact Or.inr ⟨r', if_neg hr⟩
  · intro r' hr'
    have hr : r' ≠ r := fun heq => hr' (heq ▸ hartificial)
    rw [basic_partner_exchange, if_neg hr.symm, hrecord]
    exact hrow r' hr
  · rw [hnext, inColumn_exchange, inColumn_exchange, if_neg hne, if_pos rfl, inColumn_initial,
      inRow_initial]
    rfl
  · rw [hnext, nonbasic_partner_exchange, if_neg hne, hrecord, if_pos rfl]

end Basis

end Complementarity
