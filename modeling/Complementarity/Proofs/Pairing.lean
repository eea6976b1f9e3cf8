import Mathlib.Data.List.Nodup
import Complementarity.Proofs.Solution

/-!
# Pairs along every sequence of rows

The bookkeeping of a run depends on the rows of its pivots and on nothing else.  Here these rows are
arbitrary: `Basis.Reachable` collects the bookkeeping that any sequence of rows leads to, up to the
pivot with which the artificial variable leaves.  What is proved for all of it, hence for runs over
every kind of scalar:

* **until the artificial variable leaves** — `Basis.Linked.paired`: it stands in one row, every
  other row records the column of its partner, and one pair is wholly nonbasic, in the column of
  the variable that has just left and in that of the next driving variable;
* **once it has left** — `Basis.Arranged.not_bothNonbasic` and `Basis.Arranged.perm_writes`: no pair
  is wholly nonbasic, and reading off a solution writes every coordinate once;
* **every run is an instance** — `Lcp.reachable_of_mem_states`.
-/

namespace Complementarity

open Variable

variable {α : Type} {n : Nat}

namespace Basis

/-! ## What a sequence of rows leads to -/

/-- The bookkeeping after pivots in a sequence of rows, with the column of the variable that has
just left and that of the next driving variable.  The rows are arbitrary, but there is none after
the one with which the artificial variable leaves. -/
inductive Reachable : Basis n → Fin (n + 1) → Fin (n + 1) → Prop
  | start (row : Fin n) :
      Reachable ((initial n).exchange row (Fin.last n)).1 (Fin.last n)
        ((initial n).exchange row (Fin.last n)).2
  | exchange {b : Basis n} {left driving : Fin (n + 1)} (h : Reachable b left driving)
      (hstays : b.inColumn left ≠ artificial n) (row : Fin n) :
      Reachable (b.exchange row driving).1 driving (b.exchange row driving).2

/-- **The run of the bookkeeping.**  Every sequence of rows keeps the places arranged, and the
partners find each other as long as the artificial variable is basic. -/
theorem Reachable.arranged_and_linked {b : Basis n} {left driving : Fin (n + 1)}
    (h : b.Reachable left driving) :
    b.Arranged left ∧ (b.inColumn left ≠ artificial n → b.Linked left driving) := by
  induction h with
  | start row => exact ⟨(linked_initial row).toArranged, fun _ => linked_initial row⟩
  | exchange _ hstays row ih =>
    have hlinked := ih.2 hstays
    refine ⟨hlinked.arranged_exchange row, fun hcolumn => hlinked.exchange row ?_⟩
    rwa [inColumn_exchange, if_pos rfl] at hcolumn

/-! ## Until the artificial variable leaves -/

/-- Both variables of the pair `k` are nonbasic. -/
def BothNonbasic (b : Basis n) (k : Fin n) : Prop :=
  (∃ c, b.inColumn c = .w k.castSucc) ∧ ∃ c, b.inColumn c = .z k.castSucc

/-- How the pairs stand as long as the artificial variable is basic. -/
structure Paired (b : Basis n) (left driving : Fin (n + 1)) : Prop where
  /-- The artificial variable stands in one row. -/
  artificial_row : ∃! r, b.inRow r = artificial n
  /-- Every other row records the column of its partner. -/
  partner_row : ∀ r, b.inRow r ≠ artificial n →
    b.inColumn (b.basic.get r.castSucc).partner = (b.inRow r).partner
  /-- One pair is wholly nonbasic. -/
  pair : ∃! k, b.BothNonbasic k
  /-- One of its variables has just left, and the other one drives next. -/
  columns : ∀ k, b.BothNonbasic k →
    b.inColumn left = .w k.castSucc ∧ b.inColumn driving = .z k.castSucc ∨
      b.inColumn left = .z k.castSucc ∧ b.inColumn driving = .w k.castSucc
  /-- The record of the driving variable names the column of its partner. -/
  driving_record : (b.nonbasic.get driving).partner = left

section Pairs

variable {b : Basis n} {left driving : Fin (n + 1)}

theorem w_ne_formal (i : Fin n) : Variable.w i.castSucc ≠ formal n :=
  fun heq => i.castSucc_lt_last.ne (Variable.w.inj heq)

/-- A variable other than the formal one stands in a column if it stands in no row. -/
theorem Arranged.exists_inColumn_iff (h : b.Arranged left) {v : Variable n} (hv : v ≠ formal n) :
    (∃ c, b.inColumn c = v) ↔ v ∉ b.basicSet := by
  constructor
  · rintro ⟨c, rfl⟩
    exact h.inColumn_notMem_basicSet c
  · intro hmem
    exact (h.exists_place hv).resolve_left fun hrow => hmem (mem_basicSet.2 hrow)

theorem Arranged.bothNonbasic_iff (h : b.Arranged left) (k : Fin n) :
    b.BothNonbasic k ↔
      Variable.w k.castSucc ∉ b.basicSet ∧ Variable.z k.castSucc ∉ b.basicSet :=
  and_congr (h.exists_inColumn_iff (w_ne_formal k)) (h.exists_inColumn_iff nofun)

/-- **Until the artificial variable leaves**, one pair is wholly nonbasic, and all other partners
find each other. -/
theorem Linked.paired (h : b.Linked left driving) : b.Paired left driving := by
  obtain ⟨k, hk⟩ := h.exists_missing
  simp only [← h.bothNonbasic_iff] at hk
  refine ⟨?_, h.partner_row, ⟨k, (hk k).2 rfl, fun i => (hk i).1⟩, ?_, h.driving_record⟩
  · obtain ⟨r, hr⟩ := h.artificial_row
    exact ⟨r, hr, fun r' hr' => h.inRow_injective (hr'.trans hr.symm)⟩
  · intro i hi
    obtain ⟨hw, hz⟩ := (h.bothNonbasic_iff i).1 hi
    rcases h.eq_of_partner_notMem hw hz (w_ne_formal i) with heq | heq
    · refine Or.inl ⟨heq.symm, ?_⟩
      rw [h.driving_eq, ← heq]
      rfl
    · refine Or.inr ⟨?_, heq.symm⟩
      rw [← partner_partner (b.inColumn left), ← h.driving_eq, ← heq]
      rfl

/-! ## Once it has left -/

/-- **Once the artificial variable has left**, no pair is wholly nonbasic. -/
theorem Arranged.not_bothNonbasic (h : b.Arranged left) (hleft : b.inColumn left = artificial n)
    (k : Fin n) : ¬ b.BothNonbasic k := by
  rintro ⟨⟨c, hc⟩, hz⟩
  have hproper : b.inColumn c ≠ artificial n := by
    rw [hc]
    nofun
  have hcolumn : c ≠ left := fun heq => hproper (heq ▸ hleft)
  rcases h.partner_inColumn c hcolumn hproper with heq | ⟨r, hr⟩
  · rw [hc, hleft] at heq
    exact k.castSucc_lt_last.ne (Variable.z.inj heq)
  · rw [hc] at hr
    exact (h.exists_inColumn_iff (v := .z k.castSucc) nofun).1 hz (mem_basicSet.2 ⟨r, hr⟩)

end Pairs

section Writes

variable [Scalar α]

/-- What reading off a solution writes, in the order in which it does. -/
def writes (b : Basis n) (t : Tableau α n) : List (Variable n × α) :=
  (List.finRange n).map (fun r => (b.inRow r, t.constant r)) ++
    ((List.finRange (n + 1)).filter fun c => !(b.inColumn c).isArtificial).map
      fun c => (b.inColumn c, 0)

theorem readOff_eq_foldl_writes (b : Basis n) (t : Tableau α n) (x : Point α n) :
    b.readOff t x = (b.writes t).foldl (fun x write => x.put write.1 write.2) x := by
  rw [readOff, writes, List.foldl_append, List.foldl_map, List.foldl_map]

/-- The variables of the problem. -/
def proper (n : Nat) : List (Variable n) :=
  (List.finRange n).map (fun i => .w i.castSucc) ++ (List.finRange n).map fun i => .z i.castSucc

theorem mem_proper {v : Variable n} : v ∈ proper n ↔ v.isArtificial = false := by
  simp only [proper, List.mem_append, List.mem_map, List.mem_finRange, true_and, isArtificial,
    decide_eq_false_iff_not]
  cases v with
  | w i | z i => cases i using Fin.lastCases <;> simp [index]

theorem nodup_proper : (proper n).Nodup := by
  refine List.Nodup.append ?_ ?_ ?_
  · exact (List.nodup_finRange n).map fun i j h => Fin.castSucc_injective n (Variable.w.inj h)
  · exact (List.nodup_finRange n).map fun i j h => Fin.castSucc_injective n (Variable.z.inj h)
  · simp [List.disjoint_left]

/-- **Reading off writes every coordinate once**, and nothing else. -/
theorem Arranged.perm_writes {b : Basis n} {left : Fin (n + 1)} (h : b.Arranged left)
    (hleft : b.inColumn left = artificial n) (t : Tableau α n) :
    ((b.writes t).map Prod.fst).Perm (proper n) := by
  have hfst : (b.writes t).map Prod.fst = (List.finRange n).map b.inRow ++
      ((List.finRange (n + 1)).filter fun c => !(b.inColumn c).isArtificial).map b.inColumn := by
    simp [writes, Function.comp_def]
  rw [hfst]
  refine (List.perm_ext_iff_of_nodup ?_ nodup_proper).2 fun v => ?_
  · refine List.Nodup.append ?_ ?_ ?_
    · exact (List.nodup_finRange n).map h.inRow_injective
    · exact ((List.nodup_finRange _).filter _).map h.inColumn_injective
    · simp only [List.disjoint_left, List.mem_map]
      rintro _ ⟨r, -, rfl⟩ ⟨c, -, hc⟩
      exact h.inRow_ne_inColumn r c hc.symm
  · rw [mem_proper, List.mem_append, List.mem_map, List.mem_map]
    constructor
    · rintro (⟨r, -, rfl⟩ | ⟨c, hc, rfl⟩)
      · rw [Bool.eq_false_iff, ne_eq, isArtificial_iff, not_or]
        exact ⟨fun heq => h.inRow_ne_inColumn r left (heq.trans hleft.symm), h.inRow_ne_formal r⟩
      · simpa using (List.mem_filter.1 hc).2
    · intro hv
      have hformal : v ≠ formal n := by
        rintro rfl
        exact Bool.eq_false_iff.1 hv ((isArtificial_iff _).2 (Or.inr rfl))
      rcases h.exists_place hformal with ⟨r, rfl⟩ | ⟨c, rfl⟩
      · exact Or.inl ⟨r, List.mem_finRange r, rfl⟩
      · exact Or.inr ⟨c, List.mem_filter.2 ⟨List.mem_finRange c, by rw [hv]; rfl⟩, rfl⟩

end Writes

end Basis

/-! ## Runs -/

section Runs

variable [Scalar α]

/-- **Every run is an instance.** -/
theorem Lcp.reachable_of_mem_states (p : Lcp α n) {budget : Nat} {t : State α n}
    (ht : t ∈ p.states budget) : t.current.Reachable t.column t.driving := by
  obtain ⟨s, hstart, ht⟩ := p.mem_states_iff.1 ht
  obtain ⟨row, rfl⟩ := p.exists_start_of_start_eq_some hstart
  let P (s : State α n) : Prop := s.current.Reachable s.column s.driving
  have hfirst : P (State.start p.loaded row) := Basis.Reachable.start row
  refine State.forall_mem_trace (fun s _ (hreachable : P s) hstep => ?_) hfirst budget t ht
  obtain ⟨hreleased, row, -, rfl⟩ := State.step_eq_pivoted_iff.1 hstep
  refine hreachable.exchange (fun hleft => ?_) row
  rw [State.isReleased, hleft] at hreleased
  exact Bool.eq_false_iff.1 hreleased ((isArtificial_iff _).2 (Or.inl rfl))

/-- **The bookkeeping along every sequence of rows.**  Every variable stands in one place, the
formal one in the last place of `basic`.  Until the artificial variable leaves, the pairs stand as
in `Basis.Paired`; once it has left, no pair is wholly nonbasic and reading off writes every
coordinate once.  The states of a run, whatever its scalars, are instances. -/
theorem Basis.paired_of_rows :
    (∀ {b : Basis n} {left driving : Fin (n + 1)}, b.Reachable left driving →
      Function.Bijective b.holder ∧ b.holder (.inl (Fin.last n)) = formal n ∧
      (∀ i, (b.basic.get i).partner.val ≤ n ∧ (b.nonbasic.get i).partner.val ≤ n) ∧
      (b.inColumn left ≠ artificial n → b.Paired left driving) ∧
      (b.inColumn left = artificial n → (∀ k, ¬ b.BothNonbasic k) ∧
        ∀ (t : Tableau α n) (x : Point α n),
          b.readOff t x = (b.writes t).foldl (fun x write => x.put write.1 write.2) x ∧
          ((b.writes t).map Prod.fst).Perm (proper n))) ∧
    ∀ (p : Lcp α n) (settings : Settings) (d : Diagnostics) (workspace : Tableau α n)
      (buffer : Point α n),
      (p.run settings d workspace buffer).1.pivots =
        (p.states (settings.budget n)).map State.lastPivot ∧
      ∀ s ∈ p.states (settings.budget n), s.current.Reachable s.column s.driving := by
  refine ⟨fun {b left driving} h => ?_, fun p settings d workspace buffer => ?_⟩
  · obtain ⟨harranged, hlinked⟩ := h.arranged_and_linked
    refine ⟨harranged.bijective, harranged.formal_last, fun i => ⟨Fin.is_le _, Fin.is_le _⟩,
      fun hstays => (hlinked hstays).paired, fun hleft => ⟨harranged.not_bothNonbasic hleft, ?_⟩⟩
    exact fun t x => ⟨b.readOff_eq_foldl_writes t x, harranged.perm_writes hleft t⟩
  · exact ⟨p.pivots_run_eq settings d workspace buffer, fun s => p.reachable_of_mem_states⟩

end Runs

theorem paired_of_rows_tied :
    (∃ s ∈ tied.states 4, s.current.Paired s.column s.driving) ∧
      ∃ s ∈ tied.states 4, (∀ k, ¬ s.current.BothNonbasic k) ∧
        ((s.current.writes s.tableau).map Prod.fst).Perm (Basis.proper 2) := by
  obtain ⟨hrows, hruns⟩ := Basis.paired_of_rows (α := ℚ) (n := 2)
  have hreachable : ∀ s ∈ tied.states 4, s.current.Reachable s.column s.driving :=
    (hruns tied {} {} (Tableau.zero ℚ 2) (Point.zero ℚ 2)).2
  have hbasic : ∃ s ∈ tied.states 4, s.current.inColumn s.column ≠ artificial 2 := by
    decide +kernel
  have hleft : ∃ s ∈ tied.states 4, s.current.inColumn s.column = artificial 2 := by
    decide +kernel
  obtain ⟨s, hs, hstays⟩ := hbasic
  obtain ⟨t, ht, hleft⟩ := hleft
  obtain ⟨-, -, -, hpaired, -⟩ := hrows (hreachable s hs)
  obtain ⟨-, -, -, -, hreleased⟩ := hrows (hreachable t ht)
  obtain ⟨hpairs, hwrites⟩ := hreleased hleft
  exact ⟨⟨s, hs, hpaired hstays⟩, t, ht, hpairs, (hwrites t.tableau (Point.zero ℚ 2)).2⟩

end Complementarity
