import Complementarity.Proofs.Trace

/-!
# The largest entry of a solve

If sizes are recorded, a solve looks at all entries of every tableau that it passes through, or at
`q` alone if it does not pivot.  What is proved here holds for every kind of scalar:

* **the record is a maximum** — `SizeRecord.maxBits_observe_le_iff`;
* **a run looks at its trace** — `State.sizes_run`: what the journal has recorded at the end are the
  entries of all states;
* **what a solve reports** — `Lcp.largestBits_run_eq`: the size of the largest of the entries
  `Lcp.observed`, if sizes are recorded, and nothing otherwise.
-/

namespace Complementarity

variable {α : Type} {n : Nat}

/-! ## Maxima of lists -/

/-- A bound on a running maximum is a bound on its start and on every value. -/
theorem foldl_max_le_iff {κ : Type} [LinearOrder κ] (f : α → κ) (xs : List α) (start bound : κ) :
    xs.foldl (fun largest x => max largest (f x)) start ≤ bound ↔
      start ≤ bound ∧ ∀ x ∈ xs, f x ≤ bound := by
  induction xs generalizing start with
  | nil => simp
  | cons x xs ih =>
    rw [List.foldl_cons, ih]
    simp [and_assoc]

theorem le_foldl_min_iff {κ : Type} [LinearOrder κ] (f : α → κ) (xs : List α) (start bound : κ) :
    bound ≤ xs.foldl (fun least x => min least (f x)) start ↔
      bound ≤ start ∧ ∀ x ∈ xs, bound ≤ f x := by
  induction xs generalizing start with
  | nil => simp
  | cons x xs ih =>
    rw [List.foldl_cons, ih]
    simp [and_assoc]

namespace SizeRecord

variable [Scalar α] (s : SizeRecord)

theorem observe_append (xs ys : List α) : s.observe (xs ++ ys) = (s.observe xs).observe ys := by
  simp [observe]

theorem maxBits_observe_le_iff (xs : List α) (bound : Nat) :
    (s.observe xs).maxBits ≤ bound ↔ s.maxBits ≤ bound ∧ ∀ x ∈ xs, Scalar.bits x ≤ bound :=
  foldl_max_le_iff Scalar.bits xs s.maxBits bound

end SizeRecord

/-! ## Entries -/

/-- What holds of all members of a vector holds of all its entries. -/
theorem forall_mem_toList_iff {v : Vector α n} {P : α → Prop} :
    (∀ a ∈ v.toList, P a) ↔ ∀ i, P (v.get i) := by
  simp only [Vector.mem_toList_iff]
  rw [Vector.forall_mem_iff_forall_getElem]
  exact ⟨fun h i => h i i.isLt, fun h i hi => h ⟨i, hi⟩⟩

/-- What holds of all members of a matrix holds of all its entries. -/
theorem Dense.forall_mem_entries_iff {rows cols : Nat} {m : Dense α rows cols} {P : α → Prop} :
    (∀ a ∈ m.entries, P a) ↔ ∀ i j, P (m.entry i j) := by
  unfold entries
  rw [List.forall_mem_flatMap, forall_mem_toList_iff]
  exact forall_congr' fun i => forall_mem_toList_iff (v := m.row i)

/-- The entries of a tableau are those of its rows and columns. -/
theorem Tableau.mem_entries_iff {t : Tableau α n} {x : α} :
    x ∈ t.entries ↔ ∃ r c, t.entry r c = x := by
  unfold entries Dense.entries
  simp only [List.mem_flatMap, Vector.mem_toList_iff, Vector.mem_iff_getElem]
  constructor
  · rintro ⟨row, ⟨r, hr, rfl⟩, c, hc, rfl⟩
    exact ⟨⟨r, hr⟩, ⟨c, hc⟩, rfl⟩
  · rintro ⟨r, c, rfl⟩
    exact ⟨t.cells.row r, ⟨r, r.isLt, rfl⟩, c, c.isLt, rfl⟩

/-! ## What a run looks at -/

variable [Scalar α]

theorem Journal.sizes_noteAll (d : Diagnostics) (number : Nat) (journal : Journal n)
    (states : List (State α n)) :
    (journal.noteAll d number states).sizes = journal.sizes.map fun sizes =>
      sizes.observe (states.flatMap fun t => t.tableau.entries) := by
  induction states generalizing number journal with
  | nil => simp [noteAll, SizeRecord.observe]
  | cons s states ih =>
    rw [noteAll, ih]
    simp [note, Function.comp_def, SizeRecord.observe_append]

/-- **A run looks at its trace.**  The sizes at the end are those of the first journal and of the
entries of all states after the first. -/
theorem State.sizes_run (d : Diagnostics) (budget iterations : Nat) (s : State α n)
    (journal : Journal n) :
    (s.run d budget iterations journal).journal.sizes = journal.sizes.map fun sizes =>
      sizes.observe ((s.trace budget).tail.flatMap fun t => t.tableau.entries) := by
  rw [run_eq, Journal.sizes_noteAll]

namespace Lcp

variable (p : Lcp α n)

/-- The entries that a solve looks at. -/
def observed (budget : Nat) : List α :=
  p.start?.elim p.q.toList fun s => (s.trace budget).flatMap fun t => t.tableau.entries

/-- A solve looks at `q` if it does not pivot, and at its tableaux otherwise. -/
theorem mem_observed {budget : Nat} {x : α} (hx : x ∈ p.observed budget) :
    (∃ i, p.q.get i = x) ∨ ∃ s ∈ p.states budget, ∃ r c, s.tableau.entry r c = x := by
  unfold observed at hx
  cases hstart : p.start? with
  | none =>
    rw [hstart, Option.elim_none, Vector.mem_toList_iff, Vector.mem_iff_getElem] at hx
    obtain ⟨i, hi, rfl⟩ := hx
    exact Or.inl ⟨⟨i, hi⟩, rfl⟩
  | some s =>
    rw [hstart, Option.elim_some, List.mem_flatMap] at hx
    obtain ⟨t, ht, hx⟩ := hx
    exact Or.inr ⟨t, p.mem_states_iff.2 ⟨s, hstart, ht⟩, Tableau.mem_entries_iff.1 hx⟩

omit [Scalar α] in
theorem sizes_close (j : Journal n) (d : Diagnostics) (e : Event) :
    (j.close d e).sizes = j.sizes := by
  unfold Journal.close
  split <;> rfl

theorem largestBits_outcomeOfFinish (f : Finish α n) (d : Diagnostics) (budget : Nat)
    (buffer : Point α n) :
    (outcomeOfFinish d budget f buffer).cost.largestBits = f.journal.maxBits := by
  simp only [outcomeOfFinish, Journal.maxBits]
  split
  · rw [sizes_close]
  · rfl

/-- **What a solve reports** about sizes: that of the largest entry it looks at, if it is told
to. -/
theorem largestBits_run_eq (settings : Settings) (d : Diagnostics) (workspace : Tableau α n)
    (buffer : Point α n) :
    (p.run settings d workspace buffer).1.cost.largestBits =
      if settings.recordSizes then
        some (({} : SizeRecord).observe (p.observed (settings.budget n))).maxBits
      else none := by
  unfold observed
  cases hstart : p.start? with
  | none =>
    rw [run_of_start_eq_none p settings d workspace buffer hstart]
    unfold trivialOutcome Journal.measure Journal.blank Journal.maxBits
    split <;> rfl
  | some s =>
    obtain ⟨rest, hrest⟩ := s.trace_eq_cons (settings.budget n)
    rw [run_of_start_eq_some p settings d workspace buffer hstart, largestBits_outcomeOfFinish,
      Journal.maxBits, State.sizes_run, Option.elim_some, hrest, List.flatMap_cons, List.tail_cons,
      SizeRecord.observe_append]
    unfold Journal.note Journal.blank
    split <;> rfl

end Lcp

end Complementarity
