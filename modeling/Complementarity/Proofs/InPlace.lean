import Mathlib.Tactic.Basic
import Complementarity.Proofs.Exchange
import Complementarity.Proofs.Loops
import Complementarity.Tableau.InPlace

/-!
# Tableau operations cell by cell

A tableau that is updated in place is written in the order in which the loops go, and every cell
that they read may have been written before.  What is proved here, for every kind of scalar:

* **a loop along a row** — `foldlM_cells`: a loop that looks at other rows and at the cell that it
  is about to write replaces the row;
* **a loop over the rows** — `foldlM_rows`: a loop that looks at rows that it leaves as they are and
  at the row that it is about to replace replaces them all;
* **the operations** — `pivot_eq`, `enterArtificial_eq`, `loadPerturbation_eq`, `loadMatrix_eq`: the
  loops of each operation stay in range, and they lead to the tableau that its definition states.

So what is known of `Tableau.pivot` holds of the loops, order of writes and skipped rows included:
for rational numbers `equations_exchange` and `pivots_undo_themselves` say so.
-/

namespace Complementarity.Tableau

variable {α : Type} {n : Nat}

/-! ## Cells and rows -/

/-- The tableau with the given rows. -/
def ofRows (rows : Fin n → Fin (2 * n + 2) → α) : Tableau α n := ⟨Dense.ofFn rows⟩

@[simp] theorem entry_ofRows (rows : Fin n → Fin (2 * n + 2) → α) (r : Fin n)
    (c : Fin (2 * n + 2)) : (ofRows rows).entry r c = rows r c :=
  Dense.entry_ofFn _ _ _

/-- The tableau with row `r` replaced. -/
def setRow (t : Tableau α n) (r : Fin n) (cells : Fin (2 * n + 2) → α) : Tableau α n :=
  ofRows fun r' => if r' = r then cells else t.entry r'

@[simp] theorem entry_setRow (t : Tableau α n) (r r' : Fin n) (cells : Fin (2 * n + 2) → α)
    (c : Fin (2 * n + 2)) :
    (t.setRow r cells).entry r' c = if r' = r then cells c else t.entry r' c := by
  rw [setRow, entry_ofRows]
  split <;> rfl

theorem setRow_self (t : Tableau α n) (r : Fin n) : t.setRow r (t.entry r) = t := by
  refine ext fun r' c => ?_
  rw [entry_setRow]
  split
  · rename_i h
    rw [h]
  · rfl

theorem set_self (t : Tableau α n) (r : Fin n) (c : Fin (2 * n + 2)) :
    t.set r c (t.entry r c) = t := by
  refine ext fun r' c' => ?_
  rw [entry_set]
  split
  · rename_i h
    rw [h.1, h.2]
  · rfl

namespace InPlace

theorem checked_row (r : Fin n) : Checked.row n r = .ok r := dif_pos r.isLt

theorem checked_column (c : Fin (2 * n + 2)) : Checked.column n c = .ok c := dif_pos c.isLt

theorem checked_entry (t : Tableau α n) (r : Fin n) (c : Fin (2 * n + 2)) :
    Checked.entry t r c = .ok (t.entry r c) := by
  rw [Checked.entry, checked_row, checked_column]
  rfl

theorem checked_constant (t : Tableau α n) (r : Fin n) :
    Checked.constant t r = .ok (t.constant r) := by
  rw [Checked.constant, checked_row]
  rfl

theorem write_eq (t : Tableau α n) (r : Fin n) (c : Fin (2 * n + 2)) (x : α) :
    write t r c x = .ok (t.set r c x) := by
  rw [write, checked_row, checked_column]
  rfl

theorem rewrite_eq (t : Tableau α n) (r : Fin n) (c : Fin (2 * n + 2)) (f : α → α) :
    rewrite t r c f = .ok (t.set r c (f (t.entry r c))) := by
  rw [rewrite, checked_entry]
  exact write_eq t r c _

/-- **A loop along a row.**  Each round may look at the other rows and at the cell that it writes;
what it would find in the cells before that one is not the old row. -/
theorem foldlM_cells {f : Tableau α n → Nat → Except TableauFault (Tableau α n)} {t : Tableau α n}
    {r : Fin n} {cells : Fin (2 * n + 2) → α}
    (h : ∀ (u : Tableau α n) (c : Fin (2 * n + 2)), (∀ r' ≠ r, u.entry r' = t.entry r') →
      u.entry r c = t.entry r c → f u c = .ok (u.set r c (cells c))) :
    (List.range (2 * n + 2)).foldlM f t = .ok (t.setRow r cells) := by
  -- after some rounds the cells before that number are new
  let s (i : Nat) : Tableau α n := t.setRow r fun c => if c.val < i then cells c else t.entry r c
  have hfirst : s 0 = t := by
    simpa [s] using setRow_self t r
  have hlast : s (2 * n + 2) = t.setRow r cells := by
    refine ext fun r' c => ?_
    simp [s]
  rw [← hlast]
  conv_lhs => rw [← hfirst]
  refine foldlM_range_eq_ok fun i hi => ?_
  have hround := h (s i) ⟨i, hi⟩ (fun r' hr' => funext fun c => by simp [s, hr']) (by simp [s])
  refine hround.trans (congrArg Except.ok (ext fun r' c => ?_))
  simp only [s, entry_set, entry_setRow]
  grind

/-- **A loop over the rows.**  Each round may look at the rows that the loop leaves as they are and
at the row that it replaces. -/
theorem foldlM_rows {f : Tableau α n → Fin n → Except TableauFault (Tableau α n)}
    {t t' : Tableau α n}
    (h : ∀ (u : Tableau α n) (r : Fin n),
      (∀ r', t'.entry r' = t.entry r' → u.entry r' = t.entry r') → u.entry r = t.entry r →
        f u r = .ok (u.setRow r (t'.entry r))) :
    (List.finRange n).foldlM f t = .ok t' := by
  -- after some rounds the rows before that number are new
  let s (i : Nat) : Tableau α n :=
    ofRows fun r => if r.val < i then t'.entry r else t.entry r
  have hfirst : s 0 = t := ext fun r c => by simp [s]
  have hlast : s n = t' := ext fun r c => by simp [s]
  rw [← hlast]
  conv_lhs => rw [← hfirst]
  refine foldlM_finRange_eq_ok fun i => ?_
  have hround := h (s i) i (fun r' hr' => funext fun c => by simp [s, hr'])
    (funext fun c => by simp [s])
  refine hround.trans (congrArg Except.ok (ext fun r c => ?_))
  simp only [s, entry_setRow, entry_ofRows]
  grind

/-- A loop over the rows other than `b`. -/
theorem foldlM_otherRows {f : Tableau α n → Nat → Except TableauFault (Tableau α n)}
    {t : Tableau α n} {b : Fin n} {rows : Fin n → Fin (2 * n + 2) → α}
    (h : ∀ (u : Tableau α n) (r : Fin n), r ≠ b → u.entry b = t.entry b →
      u.entry r = t.entry r → f u r = .ok (u.setRow r (rows r))) :
    (otherRows n b).foldlM f t = .ok (ofRows fun r => if r = b then t.entry b else rows r) := by
  rw [otherRows, List.foldlM_filter, foldlM_range_eq]
  refine foldlM_rows fun u r hkept hrow => ?_
  have hb : u.entry b = t.entry b := hkept b (funext fun c => by simp)
  by_cases hr : r = b
  · subst hr
    have hself : (ofRows fun r' => if r' = r then t.entry r else rows r').entry r = u.entry r :=
      funext fun c => by simp [hb]
    simp [hself, setRow_self]
  · have hval : r.val ≠ b.val := Fin.val_ne_of_ne hr
    have hnew : (ofRows fun r' => if r' = b then t.entry b else rows r').entry r = rows r :=
      funext fun c => by simp [hr]
    simp [hval, hnew, h u r hr hb hrow]

/-- A loop along a row that passes over the artificial column. -/
theorem foldlM_properColumns {f : Tableau α n → Nat → Except TableauFault (Tableau α n)}
    {t : Tableau α n} {r : Fin n} {cells : Fin (2 * n + 2) → α}
    (h : ∀ (u : Tableau α n) (c : Fin (2 * n + 2)), c ≠ artificialColumn →
      (∀ r' ≠ r, u.entry r' = t.entry r') → u.entry r c = t.entry r c →
      f u c = .ok (u.set r c (cells c))) :
    (properColumns n).foldlM f t =
      .ok (t.setRow r fun c => if c = artificialColumn then t.entry r c else cells c) := by
  rw [properColumns, List.foldlM_filter]
  refine foldlM_cells fun u c hothers hcell => ?_
  by_cases hc : c = artificialColumn
  · subst hc
    have hval : (artificialColumn : Fin (2 * n + 2)).val = n := rfl
    simp [hval, ← hcell, set_self]
  · have hval : c.val ≠ n := Fin.val_ne_of_ne hc
    simp [hc, hval, h u c hc hothers hcell]

theorem fillPolynomial_eq (t : Tableau α n) (r : Fin n) (f : α → α) {out : List α}
    (hlength : out.length = n + 1) :
    fillPolynomial t r f out = .ok ((t.polynomial r).map f) := by
  rw [fillPolynomial, if_pos hlength, hlength, ← List.map_coe_finRange_eq_range, List.mapM_map,
    polynomial, List.ofFn_eq_map, List.map_map]
  refine mapM_eq_ok_map fun k _ => ?_
  exact congrArg (Except.map f) (checked_entry t r (polynomialColumn k))

theorem entryOf_ofDense (m : Dense α n n) (r c : Fin n) :
    entryOf (.ofDense m) r c = .ok (m.entry r c) := by
  have hr : r.val < (Grid.ofDense m).rows := r.isLt
  have hc : c.val < (Grid.ofDense m).cols := c.isLt
  rw [entryOf, dif_pos hr, dif_pos hc]
  rfl

variable [Scalar α]

theorem reciprocal_eq (t : Tableau α n) (r : Fin n) (c : Fin (2 * n + 2))
    (hdivisor : Scalar.isDivisor (t.entry r c) = true) :
    reciprocal t r c = .ok (1 / t.entry r c) := by
  rw [reciprocal, checked_entry, ok_bind, if_pos hdivisor]
  rfl

/-! ## Loading a problem -/

theorem loadConstant_eq (t : Tableau α n) (r : Fin n) (x : α) :
    loadConstant t r x = .ok (t.setRow r fun c =>
      if c.val ≤ n then t.entry r c
      else if c.val = n + 1 then x
      else if c.val = n + 2 + r.val then 1
      else 0) := by
  -- after some rounds as many coefficients of the polynomial are zero
  let s (i : Nat) : Tableau α n :=
    t.setRow r fun c => if n + 1 ≤ c.val ∧ c.val < n + 1 + i then 0 else t.entry r c
  have hfirst : s 0 = t := by
    refine ext fun r' c => ?_
    simp only [s, entry_setRow]
    grind
  have hcleared : (List.range (n + 1)).foldlM (fun t k => write t r (n + 1 + k) 0) t =
      .ok (s (n + 1)) := by
    conv_lhs => rw [← hfirst]
    refine foldlM_range_eq_ok fun k hk => ?_
    refine (write_eq (s k) r (polynomialColumn ⟨k, hk⟩) 0).trans ?_
    refine congrArg Except.ok (ext fun r' c => ?_)
    simp only [s, entry_set, entry_setRow, polynomialColumn, Fin.ext_iff]
    grind
  have hr := r.isLt
  rw [loadConstant, hcleared, ok_bind, write_eq _ r ⟨n + 1, by omega⟩, ok_bind,
    write_eq _ r ⟨n + 2 + r, by omega⟩]
  refine congrArg Except.ok (ext fun r' c => ?_)
  simp only [s, entry_set, entry_setRow, Fin.ext_iff]
  grind

theorem loadPerturbation_eq (t : Tableau α n) (q : Vector α n) :
    loadPerturbation t q.toArray = .ok (t.withPerturbation q) := by
  have hrounds : q.toArray.toList.zipIdx = (List.finRange n).map fun r => (q.get r, r.val) := by
    refine List.ext_getElem (by simp) fun i _ _ => ?_
    simp [Vector.get]
  rw [loadPerturbation, if_pos q.size_toArray, hrounds, List.foldlM_map]
  refine foldlM_rows fun u r _ hrow => ?_
  rw [loadConstant_eq, hrow]
  refine congrArg Except.ok (congrArg (u.setRow r) (funext fun c => ?_))
  exact (entry_withPerturbation t q r c).symm

theorem loadRow_eq (t : Tableau α n) (m : Dense α n n) (r : Fin n) :
    loadRow (.ofDense m) t r = .ok (t.setRow r fun c =>
      if h : c.val < n then m.entry r ⟨c.val, h⟩
      else if c.val = n then 1
      else t.entry r c) := by
  let s (i : Nat) : Tableau α n := t.setRow r fun c =>
    if h : c.val < n then if c.val < i then m.entry r ⟨c.val, h⟩ else t.entry r c else t.entry r c
  have hfirst : s 0 = t := by
    refine ext fun r' c => ?_
    simp only [s, entry_setRow]
    grind
  have hloaded : (List.range n).foldlM (fun t c => do write t r c (← entryOf (.ofDense m) r c)) t =
      .ok (s n) := by
    conv_lhs => rw [← hfirst]
    refine foldlM_range_eq_ok fun c hc => ?_
    rw [entryOf_ofDense m r ⟨c, hc⟩, ok_bind]
    refine (write_eq (s c) r ⟨c, by omega⟩ _).trans ?_
    refine congrArg Except.ok (ext fun r' c' => ?_)
    simp only [s, entry_set, entry_setRow, Fin.ext_iff]
    grind
  rw [loadRow, hloaded, ok_bind]
  refine (write_eq (s n) r artificialColumn 1).trans ?_
  refine congrArg Except.ok (ext fun r' c => ?_)
  simp only [s, entry_set, entry_setRow, artificialColumn, coefficientColumn, Fin.ext_iff,
    Fin.val_last]
  grind

theorem loadMatrix_eq (t : Tableau α n) (m : Dense α n n) :
    loadMatrix t (.ofDense m) = .ok (t.withMatrix m) := by
  have hshape : (Grid.ofDense m).rows = n ∧ (Grid.ofDense m).cols = n := ⟨rfl, rfl⟩
  rw [loadMatrix, if_pos hshape, foldlM_range_eq]
  refine foldlM_rows fun u r _ hrow => ?_
  rw [loadRow_eq, hrow]
  refine congrArg Except.ok (congrArg (u.setRow r) (funext fun c => ?_))
  exact (entry_withMatrix t m r c).symm

/-! ## Pivoting -/

theorem solveRow_eq (t : Tableau α n) (b : Fin n) (d : Fin (2 * n + 2)) (inverse : α) :
    solveRow b d inverse t =
      .ok (t.setRow b fun c => if c = d then inverse else -(t.entry b c * inverse)) := by
  refine foldlM_cells fun u c _ hcell => ?_
  by_cases hc : c = d
  · rw [if_pos hc, if_pos (congrArg Fin.val hc)]
    exact write_eq u b c _
  · rw [if_neg hc, if_neg (Fin.val_ne_of_ne hc), rewrite_eq, hcell]

/-- The entries of row `r` after the variable of column `d` has been eliminated from it. -/
def rowWithout (t : Tableau α n) (b : Fin n) (d : Fin (2 * n + 2)) (inverse : α) (r : Fin n)
    (c : Fin (2 * n + 2)) : α :=
  if Scalar.isZero (t.entry r d) then t.entry r c
  else if c = d then t.entry r d * inverse
  else t.entry r c - t.entry b c * (t.entry r d * inverse)

/-- Another row is rewritten while the row that is solved has its old entries. -/
theorem eliminateRow_eq (t u : Tableau α n) {b r : Fin n} (hr : r ≠ b) (d : Fin (2 * n + 2))
    (inverse : α) (hb : u.entry b = t.entry b) (hrow : u.entry r = t.entry r) :
    eliminateRow b d inverse u r = .ok (u.setRow r (rowWithout t b d inverse r)) := by
  rw [eliminateRow, checked_entry, ok_bind, hrow]
  by_cases hzero : Scalar.isZero (t.entry r d) = true
  · rw [if_pos hzero]
    refine congrArg Except.ok ((setRow_self u r).symm.trans (congrArg (u.setRow r) ?_))
    rw [hrow]
    funext c
    rw [rowWithout, if_pos hzero]
  · rw [if_neg hzero]
    refine foldlM_cells fun v c hothers hcell => ?_
    rw [rowWithout, if_neg hzero]
    by_cases hc : c = d
    · rw [if_pos hc, if_pos (congrArg Fin.val hc)]
      exact write_eq v r c _
    · rw [if_neg hc, if_neg (Fin.val_ne_of_ne hc), checked_entry, ok_bind, rewrite_eq, hcell,
        hothers b hr.symm, hb, hrow]

/-- **A pivot cell by cell** is a pivot. -/
theorem pivot_eq (t : Tableau α n) (b : Fin n) (d : Fin (2 * n + 2))
    (hdivisor : Scalar.isDivisor (t.entry b d) = true) :
    pivot t b d = .ok (t.pivot b d) := by
  rw [pivot, reciprocal_eq t b d hdivisor, ok_bind,
    foldlM_otherRows fun u r hr hb hrow => eliminateRow_eq t u hr d _ hb hrow, ok_bind,
    solveRow_eq]
  refine congrArg Except.ok (ext fun r c => ?_)
  rw [entry_setRow, entry_pivot]
  by_cases hr : r = b
  · simp [hr]
  · simp [hr, rowWithout]

theorem subtractRow_eq (t u : Tableau α n) {b r : Fin n} (hr : r ≠ b) (hb : u.entry b = t.entry b)
    (hrow : u.entry r = t.entry r) :
    subtractRow b u r = .ok (u.setRow r fun c =>
      if c = artificialColumn then t.entry r c else t.entry r c - t.entry b c) := by
  rw [subtractRow, ← hrow, ← hb]
  refine foldlM_properColumns fun v c _ hothers hcell => ?_
  rw [checked_entry, ok_bind, checked_entry, ok_bind, write_eq, hcell, hothers b hr.symm]

theorem negateRow_eq (t : Tableau α n) (b : Fin n) :
    negateRow t b =
      .ok (t.setRow b fun c => if c = artificialColumn then t.entry b c else -t.entry b c) := by
  refine foldlM_properColumns fun u c _ _ hcell => ?_
  rw [rewrite_eq, hcell]

/-- **The first pivot cell by cell** is the first pivot. -/
theorem enterArtificial_eq (t : Tableau α n) (b : Fin n) :
    enterArtificial t b = .ok (t.enterArtificial b) := by
  rw [enterArtificial, foldlM_otherRows fun u r hr hb hrow => subtractRow_eq t u hr hb hrow,
    ok_bind, negateRow_eq]
  refine congrArg Except.ok (ext fun r c => ?_)
  rw [entry_setRow, entry_enterArtificial]
  by_cases hr : r = b
  · simp [hr]
  · simp [hr]

end InPlace

/-! ## Exact arithmetic -/

/-- **A pivot is an exact exchange.**  Carried out cell by cell on an entry other than zero, it goes
through, leaves the rows as they are that it skips, and keeps every equation, with the values of the
two exchanged variables traded and in both directions. -/
theorem equations_exchange (t : Tableau ℚ n) (b : Fin n) (d : Fin (n + 1))
    (hpivot : t.coefficient b d ≠ 0) :
    ∃ t', InPlace.pivot t b d = .ok t' ∧
      (∀ r ≠ b, t.coefficient r d = 0 → t'.entry r = t.entry r) ∧
      ∀ (y : Fin n → ℚ) (x g : Fin (n + 1) → ℚ),
        (∀ r, y r = ∑ k, t.entry r (polynomialColumn k) * g k + ∑ c, t.coefficient r c * x c) ↔
          ∀ r, Function.update y b (x d) r = ∑ k, t'.entry r (polynomialColumn k) * g k +
            ∑ c, t'.coefficient r c * Function.update x d (y b) c := by
  have hdivisor : Scalar.isDivisor (t.entry b (coefficientColumn d)) = true :=
    decide_eq_true_iff.2 hpivot
  refine ⟨_, InPlace.pivot_eq t b (coefficientColumn d) hdivisor, ?_, fun y x g => ?_⟩
  · intro r hr hzero
    have hskipped : Scalar.isZero (t.entry r (coefficientColumn d)) = true := (isZero_iff _).2 hzero
    funext c
    rw [entry_pivot, if_neg hr, if_pos hskipped]
  · exact (satisfied_pivot t g y x b d hpivot).symm

/-- A loaded tableau whose second row has a zero in the first column. -/
def skipping : Tableau ℚ 2 :=
  ((zero ℚ 2).withPerturbation #v[-1, 3]).withMatrix ⟨#v[#v[-2, 0], #v[0, 1]]⟩

theorem equations_exchange_skipping :
    ∃ t', InPlace.pivot skipping 0 0 = .ok t' ∧ t'.entry 1 = skipping.entry 1 ∧
      ∀ r, Function.update ![-2, 5] 0 1 r = ∑ k, t'.entry r (polynomialColumn k) * ![1, 0, 0] k +
        ∑ c, t'.coefficient r c * Function.update ![1, 1, 1] 0 (-2) c := by
  have hpivot : skipping.coefficient 0 0 ≠ 0 := by decide +kernel
  have hzero : skipping.coefficient 1 0 = 0 := by decide +kernel
  have hbefore : ∀ r, ![-2, 5] r = ∑ k, skipping.entry r (polynomialColumn k) * ![1, 0, 0] k +
      ∑ c, skipping.coefficient r c * ![1, 1, 1] c := by decide +kernel
  obtain ⟨t', hresult, hskipped, hequations⟩ := equations_exchange skipping 0 0 hpivot
  exact ⟨t', hresult, hskipped 1 (by decide) hzero, (hequations _ _ _).1 hbefore⟩

/-- **Pivots undo themselves, and the first one is no exception.**  On a column of ones the first
pivot and the general one, each with loops of its own, lead to the same tableau, whose column
consists of ones again; and a pivot that is repeated restores every entry. -/
theorem pivots_undo_themselves (t : Tableau ℚ n) (b : Fin n) :
    ((∀ r, t.entry r artificialColumn = 1) →
      ∃ t', InPlace.enterArtificial t b = .ok t' ∧ InPlace.pivot t b n = .ok t' ∧
        ∀ r, t'.entry r artificialColumn = 1) ∧
      ∀ d : Fin (2 * n + 2), t.entry b d ≠ 0 →
        ∃ t', InPlace.pivot t b d = .ok t' ∧ InPlace.pivot t' b d = .ok t := by
  constructor
  · intro hone
    have hdivisor : Scalar.isDivisor (t.entry b artificialColumn) = true := by
      rw [hone b]
      rfl
    refine ⟨_, InPlace.enterArtificial_eq t b, ?_, fun r => ?_⟩
    · rw [enterArtificial_eq_pivot t b hone]
      exact InPlace.pivot_eq t b artificialColumn hdivisor
    · rw [entry_enterArtificial, if_pos rfl, hone r]
  · intro d hpivot
    have hentry : (t.pivot b d).entry b d = (t.entry b d)⁻¹ := by
      rw [entry_pivot_eq, if_pos rfl, if_pos rfl]
    have hback : (t.pivot b d).entry b d ≠ 0 := by
      rw [hentry]
      exact inv_ne_zero hpivot
    refine ⟨_, InPlace.pivot_eq t b d (decide_eq_true_iff.2 hpivot), ?_⟩
    rw [InPlace.pivot_eq _ b d (decide_eq_true_iff.2 hback), pivot_pivot t b d hpivot]

theorem pivots_undo_themselves_skipping :
    (∃ t', InPlace.enterArtificial skipping 0 = .ok t' ∧ InPlace.pivot skipping 0 2 = .ok t' ∧
      ∀ r, t'.entry r artificialColumn = 1) ∧
      ∃ t', InPlace.pivot skipping 0 0 = .ok t' ∧ InPlace.pivot t' 0 0 = .ok skipping := by
  have hone : ∀ r, skipping.entry r artificialColumn = 1 := by decide +kernel
  obtain ⟨hfirst, hback⟩ := pivots_undo_themselves skipping 0
  exact ⟨hfirst hone, hback 0 (by decide +kernel)⟩

end Complementarity.Tableau
