import Mathlib.Data.List.FinRange
import Complementarity.Proofs.FixedDimension

/-!
# Which problems are refused, and with which error

A problem is checked in a fixed order: whether it is empty, its rows, its columns, the entries of
`q`, the entries of the matrix row by row, and at last the settings.  `Problem.FirstFault` states
for each error what makes it the first check that fails, in terms of the data as they are given.
What is proved here, for every kind of scalar:

* **the first entry** — `Lcp.constantFault?_eq_some_iff` and `Lcp.entryFault?_eq_some_iff`, one for
  each array: which of its entries an error names;
* **the error is the first fault** — `Problem.refusal?_eq_some_iff`,
  `Solver.solve_fst_eq_error_iff`;
* **there is an error exactly if there is a fault** — `Problem.exists_firstFault_iff`.
-/

namespace Complementarity

variable {α β : Type} {n : Nat}

/-! ## The first index -/

/-- In the list of all indices, those before `i` are the smaller ones. -/
theorem mem_before_iff {before after : List (Fin n)} {i : Fin n}
    (h : List.finRange n = before ++ i :: after) (j : Fin n) : j ∈ before ↔ j < i := by
  have hsorted := List.pairwise_lt_finRange n
  rw [h, List.pairwise_append, List.pairwise_cons] at hsorted
  obtain ⟨-, ⟨hafter, -⟩, hbefore⟩ := hsorted
  refine ⟨fun hj => hbefore j hj i List.mem_cons_self, fun hj => ?_⟩
  have hmem : j ∈ before ++ i :: after := h ▸ List.mem_finRange j
  rcases List.mem_append.1 hmem with hj' | hj'
  · exact hj'
  · rcases List.mem_cons.1 hj' with rfl | hj'
    · exact absurd hj (lt_irrefl j)
    · exact absurd (hafter j hj') hj.asymm

theorem find?_finRange_eq_some_iff {P : Fin n → Bool} {i : Fin n} :
    (List.finRange n).find? P = some i ↔ P i = true ∧ ∀ j < i, P j = false := by
  rw [List.find?_eq_some_iff_append]
  refine and_congr_right fun _ => ⟨?_, fun hbefore => ?_⟩
  · rintro ⟨before, after, hsplit, hbefore⟩ j hj
    simpa using hbefore j ((mem_before_iff hsplit j).2 hj)
  · obtain ⟨before, after, hsplit⟩ := List.append_of_mem (List.mem_finRange i)
    refine ⟨before, after, hsplit, fun j hj => ?_⟩
    simpa using hbefore j ((mem_before_iff hsplit j).1 hj)

theorem findSome?_finRange_eq_some_iff {f : Fin n → Option β} {y : β} :
    (List.finRange n).findSome? f = some y ↔ ∃ i, f i = some y ∧ ∀ j < i, f j = none := by
  rw [List.findSome?_eq_some_iff]
  constructor
  · rintro ⟨before, i, after, hsplit, hi, hbefore⟩
    exact ⟨i, hi, fun j hj => hbefore j ((mem_before_iff hsplit j).2 hj)⟩
  · rintro ⟨i, hi, hbefore⟩
    obtain ⟨before, after, hsplit⟩ := List.append_of_mem (List.mem_finRange i)
    exact ⟨before, i, after, hsplit, hi, fun j hj => hbefore j ((mem_before_iff hsplit j).1 hj)⟩

/-- The first of some members that lack a property. -/
theorem findSome?_eq_map_find? {ι : Type} (P : ι → Bool) (f : ι → β) (xs : List ι) :
    (xs.findSome? fun x => if P x then none else some (f x)) =
      (xs.find? fun x => !P x).map f := by
  induction xs with
  | nil => rfl
  | cons x xs ih =>
    rw [List.findSome?_cons, List.find?_cons]
    cases P x with
    | true => exact ih
    | false => rfl

/-- The first index of an array is the first one of its vector. -/
theorem findIdx?_toArray (v : Vector α n) (P : α → Bool) :
    v.toArray.findIdx? P = ((List.finRange n).find? fun i => P (v.get i)).map Fin.val := by
  obtain ⟨xs, rfl⟩ := v
  cases h : (List.finRange xs.size).find? fun i => P ((⟨xs, rfl⟩ : Vector α xs.size).get i) with
  | some i =>
    obtain ⟨hi, hbefore⟩ := find?_finRange_eq_some_iff.1 h
    refine Array.findIdx?_eq_some_iff_getElem.2 ⟨i.isLt, hi, fun j hj => ?_⟩
    rw [Bool.not_eq_true]
    exact hbefore ⟨j, hj.trans i.isLt⟩ hj
  | none =>
    refine Array.findIdx?_eq_none_iff.2 (Array.forall_mem_iff_forall_getElem.2 fun i hi => ?_)
    exact Bool.not_eq_true _ ▸ List.find?_eq_none.1 h ⟨i, hi⟩ (List.mem_finRange _)

theorem map_coe (i : Option (Fin n)) (f : Nat → β) : (i : Option Nat).map f = i.map (f ·.val) := by
  cases i <;> rfl

/-! ## The first fault -/

/-- The data of a problem have the right shape. -/
structure Problem.WellShaped (p : Problem α) : Prop where
  dim_pos : 0 < p.dim
  rows_eq : p.m.rows = p.dim
  cols_eq : p.m.cols = p.dim

variable [Scalar α]

/-- What makes an error the first one that the checks of a problem and of the settings find. -/
inductive Problem.FirstFault (p : Problem α) (settings : Settings) : InputError → Prop
  | empty (hempty : p.dim = 0) : FirstFault p settings .emptyProblem
  | rows (hpos : 0 < p.dim) (hrows : p.m.rows ≠ p.dim) :
    FirstFault p settings (.dimensionMismatch .rows p.dim p.m.rows)
  | columns (hpos : 0 < p.dim) (hrows : p.m.rows = p.dim) (hcols : p.m.cols ≠ p.dim) :
    FirstFault p settings (.dimensionMismatch .columns p.dim p.m.cols)
  | vector (hshape : p.WellShaped) (i : Fin p.dim)
    (hi : Scalar.isFinite (p.constants.get i) = false)
    (hbefore : ∀ j < i, Scalar.isFinite (p.constants.get j) = true) :
    FirstFault p settings (.nonFiniteVector i)
  | matrix (hshape : p.WellShaped) (hq : ∀ i, Scalar.isFinite (p.constants.get i) = true)
    (i : Fin p.m.rows) (j : Fin p.m.cols) (hij : Scalar.isFinite (p.m.cells.entry i j) = false)
    (hrows : ∀ i' < i, ∀ j', Scalar.isFinite (p.m.cells.entry i' j') = true)
    (hcells : ∀ j' < j, Scalar.isFinite (p.m.cells.entry i j') = true) :
    FirstFault p settings (.nonFiniteMatrix i j)
  | settings (hshape : p.WellShaped) (hq : ∀ i, Scalar.isFinite (p.constants.get i) = true)
    (hm : ∀ i j, Scalar.isFinite (p.m.cells.entry i j) = true)
    (hlimit : settings.maxIter = some 0) :
    FirstFault p settings .noIterations

/-- What is wrong with a problem or else with the settings. -/
def Problem.refusal? (p : Problem α) (settings : Settings) : Option InputError :=
  p.fault?.or (InputError.ofSettings? settings)

/-! ## The first entry that is not finite -/

theorem find?_not_isFinite_eq_some_iff {f : Fin n → α} {i : Fin n} :
    ((List.finRange n).find? fun r => !Scalar.isFinite (f r)) = some i ↔
      Scalar.isFinite (f i) = false ∧ ∀ j < i, Scalar.isFinite (f j) = true := by
  rw [find?_finRange_eq_some_iff]
  simp

namespace Lcp

variable {p : Lcp α n} {e : InputError}

/-- The error of the first constant that is not finite. -/
def constantFault? (p : Lcp α n) : Option InputError :=
  ((List.finRange n).find? fun r => !Scalar.isFinite (p.q.get r)).map fun r =>
    .nonFiniteVector r.val

/-- The error of the first matrix entry that is not finite, row by row. -/
def entryFault? (p : Lcp α n) : Option InputError :=
  (List.finRange n).findSome? fun r =>
    ((List.finRange n).find? fun c => !Scalar.isFinite (p.m.entry r c)).map fun c =>
      .nonFiniteMatrix r.val c.val

/-- The constants are looked at before the matrix. -/
theorem firstNonFinite?_eq_or (p : Lcp α n) :
    p.firstNonFinite? = p.constantFault?.or p.entryFault? := by
  rw [firstNonFinite?, constantFault?, entryFault?]
  simp only [map_coe]
  cases (List.finRange n).find? fun r => !Scalar.isFinite (p.q.get r) with
  | some r => rfl
  | none => rfl

theorem constantFault?_eq_none_iff :
    p.constantFault? = none ↔ ∀ i, Scalar.isFinite (p.q.get i) = true := by
  rw [constantFault?, Option.map_eq_none_iff]
  exact find?_not_isFinite_eq_none_iff

theorem constantFault?_eq_some_iff :
    p.constantFault? = some e ↔
      ∃ i, Scalar.isFinite (p.q.get i) = false ∧
        (∀ j < i, Scalar.isFinite (p.q.get j) = true) ∧ .nonFiniteVector i = e := by
  simp only [constantFault?, Option.map_eq_some_iff, find?_not_isFinite_eq_some_iff, and_assoc]

theorem entryFault?_eq_some_iff :
    p.entryFault? = some e ↔
      ∃ i j, Scalar.isFinite (p.m.entry i j) = false ∧
        (∀ i' < i, ∀ j', Scalar.isFinite (p.m.entry i' j') = true) ∧
        (∀ j' < j, Scalar.isFinite (p.m.entry i j') = true) ∧ .nonFiniteMatrix i j = e := by
  rw [entryFault?, findSome?_finRange_eq_some_iff]
  simp only [Option.map_eq_some_iff, Option.map_eq_none_iff, find?_not_isFinite_eq_some_iff,
    find?_not_isFinite_eq_none_iff]
  refine exists_congr fun i => ⟨?_, ?_⟩
  · rintro ⟨⟨j, ⟨hij, hcells⟩, he⟩, hrows⟩
    exact ⟨j, hij, hrows, hcells, he⟩
  · rintro ⟨j, hij, hrows, hcells, he⟩
    exact ⟨⟨j, ⟨hij, hcells⟩, he⟩, hrows⟩

theorem firstNonFinite?_eq_some_iff :
    p.firstNonFinite? = some e ↔
      (∃ i, Scalar.isFinite (p.q.get i) = false ∧
        (∀ j < i, Scalar.isFinite (p.q.get j) = true) ∧ .nonFiniteVector i = e) ∨
      (∀ i, Scalar.isFinite (p.q.get i) = true) ∧
        ∃ i j, Scalar.isFinite (p.m.entry i j) = false ∧
          (∀ i' < i, ∀ j', Scalar.isFinite (p.m.entry i' j') = true) ∧
          (∀ j' < j, Scalar.isFinite (p.m.entry i j') = true) ∧ .nonFiniteMatrix i j = e := by
  rw [firstNonFinite?_eq_or, Option.or_eq_some_iff, constantFault?_eq_some_iff,
    constantFault?_eq_none_iff, entryFault?_eq_some_iff]

end Lcp

/-! ## The order of the checks -/

namespace InputError

theorem ofSettings?_eq_some_iff {settings : Settings} {e : InputError} :
    ofSettings? settings = some e ↔ settings.maxIter = some 0 ∧ .noIterations = e := by
  rw [ofSettings?, Settings.isUsable]
  split <;> simp_all

end InputError

namespace Problem

variable {p : Problem α} {settings : Settings} {e : InputError}

theorem fault?_of_dim_eq_zero (h : p.dim = 0) : p.fault? = some .emptyProblem := by
  rw [fault?, sized_of_dim_eq_zero h]

theorem fault?_of_rows_ne (hdim : p.dim ≠ 0) (hrows : p.m.rows ≠ p.dim) :
    p.fault? = some (.dimensionMismatch .rows p.dim p.m.rows) := by
  rw [fault?, sized, if_neg hdim, dif_neg hrows]

theorem fault?_of_cols_ne (hdim : p.dim ≠ 0) (hrows : p.m.rows = p.dim) (hcols : p.m.cols ≠ p.dim) :
    p.fault? = some (.dimensionMismatch .columns p.dim p.m.cols) := by
  rw [fault?, sized, if_neg hdim, dif_pos hrows, dif_neg hcols]

omit [Scalar α] in
/-- A problem whose shape is right. -/
theorem sized_of_wellShaped (q : Array α) (cells : Dense α q.size q.size) (hpos : 0 < q.size) :
    (⟨q, q.size, q.size, cells⟩ : Problem α).sized = .ok ⟨⟨q, rfl⟩, cells⟩ :=
  (sized_of_shape (p := ⟨q, q.size, q.size, cells⟩) hpos.ne' rfl rfl).trans <|
    congrArg (fun m => Except.ok (⟨⟨q, rfl⟩, m⟩ : Lcp α q.size)) (Grid.toDense_ofDense cells)

theorem fault?_of_wellShaped (q : Array α) (cells : Dense α q.size q.size) (hpos : 0 < q.size) :
    (⟨q, q.size, q.size, cells⟩ : Problem α).fault? =
      (⟨⟨q, rfl⟩, cells⟩ : Lcp α q.size).firstNonFinite? := by
  have hdim : (⟨q, q.size, q.size, cells⟩ : Problem α).dim ≠ 0 := hpos.ne'
  rw [fault?, sized_of_wellShaped q cells hpos]
  dsimp only
  rw [Lcp.fault?, if_neg hdim]
  rfl

theorem refusal?_of_wellShaped (q : Array α) (cells : Dense α q.size q.size) (hpos : 0 < q.size) :
    (⟨q, q.size, q.size, cells⟩ : Problem α).refusal? settings =
      (⟨⟨q, rfl⟩, cells⟩ : Lcp α q.size).firstNonFinite?.or (InputError.ofSettings? settings) := by
  rw [refusal?, fault?_of_wellShaped q cells hpos]

theorem FirstFault.refusal?_eq (h : p.FirstFault settings e) : p.refusal? settings = some e := by
  obtain ⟨q, rows, cols, cells⟩ := p
  cases h with
  | empty hempty => rw [refusal?, fault?_of_dim_eq_zero hempty, Option.some_or]
  | rows hpos hrows => rw [refusal?, fault?_of_rows_ne hpos.ne' hrows, Option.some_or]
  | columns hpos hrows hcols =>
    rw [refusal?, fault?_of_cols_ne hpos.ne' hrows hcols, Option.some_or]
  | vector hshape i hi hbefore =>
    obtain rfl : rows = q.size := hshape.rows_eq
    obtain rfl : cols = q.size := hshape.cols_eq
    rw [refusal?_of_wellShaped q cells hshape.dim_pos, Option.or_eq_some_iff]
    exact .inl (Lcp.firstNonFinite?_eq_some_iff.2 (.inl ⟨i, hi, hbefore, rfl⟩))
  | matrix hshape hq i j hij hrows hcells =>
    obtain rfl : rows = q.size := hshape.rows_eq
    obtain rfl : cols = q.size := hshape.cols_eq
    rw [refusal?_of_wellShaped q cells hshape.dim_pos, Option.or_eq_some_iff]
    exact .inl (Lcp.firstNonFinite?_eq_some_iff.2 (.inr ⟨hq, i, j, hij, hrows, hcells, rfl⟩))
  | settings hshape hq hm hlimit =>
    obtain rfl : rows = q.size := hshape.rows_eq
    obtain rfl : cols = q.size := hshape.cols_eq
    rw [refusal?_of_wellShaped q cells hshape.dim_pos, Option.or_eq_some_iff]
    exact .inr ⟨Lcp.firstNonFinite?_eq_none_iff.2 ⟨hq, hm⟩,
      InputError.ofSettings?_eq_some_iff.2 ⟨hlimit, rfl⟩⟩

theorem FirstFault.of_refusal?_eq (h : p.refusal? settings = some e) :
    p.FirstFault settings e := by
  obtain ⟨q, rows, cols, cells⟩ := p
  by_cases hdim : (⟨q, rows, cols, cells⟩ : Problem α).dim = 0
  · rw [refusal?, fault?_of_dim_eq_zero hdim, Option.some_or] at h
    obtain rfl := Option.some.inj h
    exact .empty hdim
  have hpos := Nat.pos_of_ne_zero hdim
  by_cases hrows : rows = q.size
  · by_cases hcols : cols = q.size
    · subst hrows hcols
      have hshape : (⟨q, q.size, q.size, cells⟩ : Problem α).WellShaped := ⟨hpos, rfl, rfl⟩
      rw [refusal?_of_wellShaped q cells hpos, Option.or_eq_some_iff] at h
      rcases h with hentry | ⟨hfinite, hsettings⟩
      · rcases Lcp.firstNonFinite?_eq_some_iff.1 hentry with
          ⟨i, hi, hbefore, rfl⟩ | ⟨hq, i, j, hij, hrows, hcells, rfl⟩
        · exact .vector hshape i hi hbefore
        · exact .matrix hshape hq i j hij hrows hcells
      · obtain ⟨hq, hm⟩ := Lcp.firstNonFinite?_eq_none_iff.1 hfinite
        obtain ⟨hlimit, rfl⟩ := InputError.ofSettings?_eq_some_iff.1 hsettings
        exact .settings hshape hq hm hlimit
    · have hfault : (⟨q, rows, cols, cells⟩ : Problem α).FirstFault settings
          (.dimensionMismatch .columns q.size cols) := .columns hpos hrows hcols
      rw [hfault.refusal?_eq] at h
      obtain rfl := Option.some.inj h
      exact hfault
  · have hfault : (⟨q, rows, cols, cells⟩ : Problem α).FirstFault settings
        (.dimensionMismatch .rows q.size rows) := .rows hpos hrows
    rw [hfault.refusal?_eq] at h
    obtain rfl := Option.some.inj h
    exact hfault

/-- **The error is the first fault.** -/
theorem refusal?_eq_some_iff : p.refusal? settings = some e ↔ p.FirstFault settings e :=
  ⟨FirstFault.of_refusal?_eq, FirstFault.refusal?_eq⟩

/-- A problem that is not refused has no fault. -/
theorem finite_of_refusal?_eq_none (h : p.refusal? settings = none) :
    p.WellShaped ∧ (∀ i, Scalar.isFinite (p.constants.get i) = true) ∧
      (∀ i j, Scalar.isFinite (p.m.cells.entry i j) = true) ∧ settings.maxIter ≠ some 0 := by
  have hno : ∀ e, ¬p.FirstFault settings e := fun e hfault => by
    rw [hfault.refusal?_eq] at h
    cases h
  have hpos : 0 < p.dim := Nat.pos_of_ne_zero fun hdim => hno _ (.empty hdim)
  have hrows : p.m.rows = p.dim := by_contra fun hrows => hno _ (.rows hpos hrows)
  have hcols : p.m.cols = p.dim := by_contra fun hcols => hno _ (.columns hpos hrows hcols)
  refine ⟨⟨hpos, hrows, hcols⟩, ?_⟩
  obtain ⟨q, rows, cols, cells⟩ := p
  obtain rfl : rows = q.size := hrows
  obtain rfl : cols = q.size := hcols
  rw [refusal?_of_wellShaped q cells hpos, Option.or_eq_none_iff] at h
  obtain ⟨hq, hm⟩ := Lcp.firstNonFinite?_eq_none_iff.1 h.1
  refine ⟨hq, hm, fun hlimit => ?_⟩
  rw [InputError.ofSettings?_eq_some_iff.2 ⟨hlimit, rfl⟩] at h
  cases h.2

/-- **There is an error exactly if there is a fault.** -/
theorem exists_firstFault_iff :
    (∃ e, p.FirstFault settings e) ↔ p.dim = 0 ∨ ¬(p.m.rows = p.dim ∧ p.m.cols = p.dim) ∨
      (∃ i, Scalar.isFinite (p.constants.get i) = false) ∨
      (∃ i j, Scalar.isFinite (p.m.cells.entry i j) = false) ∨ settings.maxIter = some 0 := by
  constructor
  · rintro ⟨e, hfault⟩
    cases hfault with
    | empty hempty => exact .inl hempty
    | rows hpos hrows => exact .inr (.inl fun h => hrows h.1)
    | columns hpos hrows hcols => exact .inr (.inl fun h => hcols h.2)
    | vector hshape i hi hbefore => exact .inr (.inr (.inl ⟨i, hi⟩))
    | matrix hshape hq i j hij hrows hcells => exact .inr (.inr (.inr (.inl ⟨i, j, hij⟩)))
    | settings hshape hq hm hlimit => exact .inr (.inr (.inr (.inr hlimit)))
  · intro h
    cases hrefusal : p.refusal? settings with
    | some e => exact ⟨e, refusal?_eq_some_iff.1 hrefusal⟩
    | none =>
      obtain ⟨hshape, hq, hm, hlimit⟩ := finite_of_refusal?_eq_none hrefusal
      rcases h with hempty | hsides | ⟨i, hi⟩ | ⟨i, j, hij⟩ | hzero
      · exact absurd hempty hshape.dim_pos.ne'
      · exact absurd ⟨hshape.rows_eq, hshape.cols_eq⟩ hsides
      · rw [hq i] at hi
        cases hi
      · rw [hm i j] at hij
        cases hij
      · exact absurd hzero hlimit

end Problem

/-- **What a solver refuses**, and with which error. -/
theorem Solver.solve_fst_eq_error_iff (s : Solver α) {p : Problem α} {e : InputError} :
    (s.solve p).1 = .error e ↔ p.FirstFault s.settings e := by
  rw [← Problem.refusal?_eq_some_iff, Problem.refusal?, Problem.fault?]
  cases hsized : p.sized with
  | error e' =>
    rw [s.solve_of_sized_error hsized, Option.some_or, Except.error.injEq, Option.some.injEq]
  | ok lcp =>
    have hsame : (s.solve p).1 = (s.solveSized lcp).1 := by rw [solve, hsized]
    rw [hsame, solveSized]
    change _ ↔ lcp.refusal? s.settings = some e
    cases hrefusal : lcp.refusal? s.settings with
    | some e' => rw [s.solveInto_of_refusal _ hrefusal, Except.error.injEq, Option.some.injEq]
    | none =>
      rw [solveInto_of_refusal_eq_none hrefusal]
      exact iff_of_false (fun h => by cases h) fun h => by cases h

end Complementarity
