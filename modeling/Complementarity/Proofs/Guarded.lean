import Mathlib.Tactic.Common
import Complementarity.Proofs.Bookkeeping
import Complementarity.Proofs.InPlace
import Complementarity.Run.Guarded

/-!
# The checks of the method on plain numbers

The steps of `Guarded.run` are compared with those of `Lcp.run`, in which nothing can go out of
range.  Every step of the latter, written down in plain numbers and arrays (`Records.of`,
`Output.of`, `Notes.of`), is what the checked step gives:

* **records** — `Records.reset_eq`, `Records.exchange_of`: the place of a partner is always one of
  `0, …, n`;
* **solutions** — `Records.readOff_of`: what is written has a coordinate if the artificial variable
  is in no row;
* **scans** — `scanLowest_eq`, `scanBlocking_eq`: the row that is found is that of
  `Tableau.lowestRow` and `Tableau.blockingRow`, and the one division of a ratio test is by a
  negative number, which has a reciprocal (`Scalar.NegativeDivisors`);
* **notes** — `Notes.pivot_of`: no pivot number is divided by a stride of zero.
-/

namespace Complementarity

/-- A negative number has a reciprocal. -/
class Scalar.NegativeDivisors (α : Type) [Scalar α] : Prop where
  isDivisor_of_neg : ∀ x : α, x < 0 → Scalar.isDivisor x = true

instance : Scalar.NegativeDivisors ℚ where
  isDivisor_of_neg _ hx := decide_eq_true_iff.2 hx.ne

instance : Scalar.NegativeDivisors Float where
  isDivisor_of_neg _ _ := rfl

instance : Scalar.NegativeDivisors Float32 where
  isDivisor_of_neg _ _ := rfl

namespace Guarded

variable {α β : Type} {n : Nat}

/-! ## Accesses in range -/

@[simp] theorem onTableau_ok (x : β) : onTableau (.ok x) = .ok x := rfl

theorem readAt_toArray (v : Vector β n) (i : Fin n) (fault : Fault) :
    readAt v.toArray i fault = .ok (v.get i) := by
  have hi : i.val < v.toArray.size := by
    rw [v.size_toArray]
    exact i.isLt
  rw [readAt, Array.getElem?_eq_getElem hi]
  rfl

theorem writeAt_toArray (v : Vector β n) (i : Fin n) (x : β) (fault : Fault) :
    writeAt v.toArray i x fault = .ok (v.set i.val x i.isLt).toArray := by
  have hi : i.val < v.toArray.size := by
    rw [v.size_toArray]
    exact i.isLt
  rw [writeAt, if_pos hi, Array.setIfInBounds_def, dif_pos hi]
  rfl

/-- A vector whose first coordinates have been overwritten. -/
def overwritten (v : Vector β n) (new : Fin n → β) (count : Nat) : Vector β n :=
  Vector.ofFn fun i => if i.val < count then new i else v.get i

theorem overwritten_zero (v : Vector β n) (new : Fin n → β) : overwritten v new 0 = v :=
  vector_ext fun i => by simp [overwritten]

theorem overwritten_all (v : Vector β n) (new : Fin n → β) :
    overwritten v new n = Vector.ofFn new :=
  vector_ext fun i => by simp [overwritten]

theorem set_overwritten (v : Vector β n) (new : Fin n → β) (i : Fin n) :
    (overwritten v new i).set i.val (new i) i.isLt = overwritten v new (i + 1) := by
  refine vector_ext fun j => ?_
  rw [vector_get_set, overwritten, overwritten, vector_get_ofFn, vector_get_ofFn]
  grind

theorem writeAt_overwritten (v : Vector β n) (new : Fin n → β) (i : Fin n) (fault : Fault) :
    writeAt (overwritten v new i).toArray i (new i) fault =
      .ok (overwritten v new (i + 1)).toArray := by
  rw [writeAt_toArray, set_overwritten]

/-! ## Variables, records, points and notes in plain terms -/

/-- The slot of a variable. -/
def Slot.of : Variable n → Slot
  | .w i => .w i
  | .z i => .z i

@[simp] theorem Slot.index_of (v : Variable n) : (Slot.of v).index = v.index.val := by
  cases v <;> rfl

theorem isArtificial_eq_decide (v : Variable n) :
    (!v.isArtificial) = decide ((Slot.of v).index < n) := by
  rw [Slot.index_of, Bool.eq_iff_iff, Bool.not_eq_eq_eq_not, Bool.not_true, decide_eq_true_iff]
  refine ⟨Variable.index_lt_of_proper, fun hlt => ?_⟩
  rw [Variable.isArtificial, decide_eq_false_iff_not]
  intro hlast
  rw [hlast] at hlt
  exact lt_irrefl n hlt

/-- The record of a place. -/
def Record.of (place : Place n) : Record := ⟨.of place.var, place.partner⟩

/-- The records of a basis. -/
def Records.of (b : Basis n) : Records :=
  ⟨(b.basic.map Record.of).toArray, (b.nonbasic.map Record.of).toArray⟩

/-- The vectors of a point. -/
def Output.of (x : Point α n) : Output α := ⟨x.w.toArray, x.z.toArray⟩

/-- The notes of a journal. -/
def Notes.of (j : Journal n) : Notes := ⟨j.pivots.length, j.reports, j.sizes⟩

theorem get_map_of (v : Vector (Place n) (n + 1)) (i : Fin (n + 1)) :
    (v.map Record.of).get i = Record.of (v.get i) := by
  simp [Vector.get]

theorem set_map_of (v : Vector (Place n) (n + 1)) (i : Fin (n + 1)) (place : Place n) :
    (v.map Record.of).set i.val (Record.of place) i.isLt =
      (v.set i.val place i.isLt).map Record.of :=
  Vector.map_set.symm

namespace Records

variable (b : Basis n)

theorem readAt_basic (i : Fin (n + 1)) (fault : Fault) :
    readAt (of b).basic i fault = .ok (.of (b.basic.get i)) :=
  (readAt_toArray _ i fault).trans (congrArg Except.ok (get_map_of _ i))

theorem readAt_nonbasic (i : Fin (n + 1)) (fault : Fault) :
    readAt (of b).nonbasic i fault = .ok (.of (b.nonbasic.get i)) :=
  (readAt_toArray _ i fault).trans (congrArg Except.ok (get_map_of _ i))

theorem writeAt_map (v : Vector (Place n) (n + 1)) (i : Fin (n + 1)) (place : Place n)
    (fault : Fault) :
    writeAt (v.map Record.of).toArray i (.of place) fault =
      .ok ((v.set i.val place i.isLt).map Record.of).toArray := by
  rw [writeAt_toArray, set_map_of]

/-- **An exchange** reads and writes records that there are. -/
theorem exchange_of (r : Fin n) (c : Fin (n + 1)) :
    (of b).exchange r c = .ok (of (b.exchange r c).1, (b.exchange r c).2.val) := by
  let leaving := b.basic.get r.castSucc
  let partner : Place n := { b.nonbasic.get leaving.partner with partner := c }
  let informed := b.nonbasic.set leaving.partner.val partner
  have hleaving : ∀ fault, readAt (of b).basic r fault = .ok (.of leaving) :=
    readAt_basic b r.castSucc
  have hpartner : ∀ fault, readAt (of b).nonbasic (Record.of leaving).partner fault =
      .ok (.of (b.nonbasic.get leaving.partner)) := readAt_nonbasic b leaving.partner
  have hinformed : ∀ fault,
      writeAt (of b).nonbasic (Record.of leaving).partner (.of partner) fault =
        .ok (informed.map Record.of).toArray := writeAt_map b.nonbasic leaving.partner partner
  have hentering : ∀ fault, readAt (informed.map Record.of).toArray c fault =
      .ok (.of (informed.get c)) := fun fault =>
    (readAt_toArray _ c fault).trans (congrArg Except.ok (get_map_of informed c))
  have hbasic : ∀ fault, writeAt (of b).basic r (.of (informed.get c)) fault =
      .ok ((b.basic.set r.val (informed.get c)).map Record.of).toArray :=
    writeAt_map b.basic r.castSucc (informed.get c)
  have hnonbasic : ∀ fault, writeAt (informed.map Record.of).toArray c (.of leaving) fault =
      .ok ((informed.set c.val leaving).map Record.of).toArray := writeAt_map informed c leaving
  rw [exchange, hleaving, ok_bind]
  dsimp only
  rw [hpartner, ok_bind]
  change (writeAt (of b).nonbasic (Record.of leaving).partner (.of partner) _ >>= _) = _
  rw [hinformed, ok_bind, hentering, ok_bind, hbasic, ok_bind, hnonbasic, ok_bind]
  rfl

/-- **The records of the start** can be written over any others, if there are enough. -/
theorem reset_eq {records : Records} (hbasic : records.basic.size = n + 1)
    (hnonbasic : records.nonbasic.size = n + 1) : records.reset n = .ok (of (Basis.initial n)) := by
  obtain ⟨basic, nonbasic⟩ := records
  let v : Vector Record (n + 1) := ⟨basic, hbasic⟩
  let u : Vector Record (n + 1) := ⟨nonbasic, hnonbasic⟩
  let w (i : Fin (n + 1)) : Record := ⟨.w i, i⟩
  let z (i : Fin (n + 1)) : Record := ⟨.z i, i⟩
  -- after some rounds as many records are new in both arrays
  let s (i : Nat) : Records := ⟨(overwritten v w i).toArray, (overwritten u z i).toArray⟩
  have hfirst : s 0 = ⟨basic, nonbasic⟩ := by
    simp only [s, overwritten_zero, v, u]
  have hlast : s (n + 1) = of (Basis.initial n) := by
    simp only [s, overwritten_all, of, Basis.initial, Vector.map_ofFn]
    rfl
  rw [reset, ← hlast]
  conv_lhs => rw [← hfirst]
  refine foldlM_range_eq_ok fun i hi => ?_
  have hw : ∀ fault, writeAt (s i).basic i ⟨.w i, i⟩ fault = .ok (s (i + 1)).basic :=
    writeAt_overwritten v w ⟨i, hi⟩
  have hz : ∀ fault, writeAt (s i).nonbasic i ⟨.z i, i⟩ fault = .ok (s (i + 1)).nonbasic :=
    writeAt_overwritten u z ⟨i, hi⟩
  rw [hw, ok_bind, hz, ok_bind]
  rfl

theorem size_fitted (records : Records) :
    (records.fitted n).basic.size = n + 1 ∧ (records.fitted n).nonbasic.size = n + 1 := by
  simp only [fitted, Array.take_eq_extract, Array.size_extract, Array.size_append,
    Array.size_replicate]
  omega

end Records

/-! ## Solutions -/

namespace Output

/-- A variable that is not artificial has a coordinate. -/
theorem put_of (x : Point α n) {v : Variable n} (hv : v.isArtificial = false) (value : α) :
    (of x).put (.of v) value = .ok (of (x.put v value)) := by
  have hindex := Variable.index_lt_of_proper hv
  cases v with
  | w i =>
    have hi : i.val < n := hindex
    have hwrite : ∀ fault, writeAt (of x).w i value fault = .ok (x.w.set i.val value hi).toArray :=
      writeAt_toArray x.w ⟨i, hi⟩ value
    rw [Slot.of, put, hwrite, ok_bind, Point.put, dif_pos hi]
    rfl
  | z i =>
    have hi : i.val < n := hindex
    have hwrite : ∀ fault, writeAt (of x).z i value fault = .ok (x.z.set i.val value hi).toArray :=
      writeAt_toArray x.z ⟨i, hi⟩ value
    rw [Slot.of, put, hwrite, ok_bind, Point.put, dif_pos hi]
    rfl

variable [Zero α]

theorem cleared_of (x : Point α n) : (of x).cleared = of (Point.zero α n) := by
  rw [cleared, of, of, Point.zero, Array.map_const', Array.map_const', x.w.size_toArray,
    x.z.size_toArray]
  rfl

theorem copied_of (x : Point α n) (q : Vector α n) :
    (of x).copied q.toArray = .ok (of ⟨q, Vector.replicate n 0⟩) := by
  have hsize : q.toArray.size = (of x).w.size := by
    rw [of, q.size_toArray, x.w.size_toArray]
  rw [copied, if_pos hsize, of, of, Array.map_const', x.z.size_toArray]
  rfl

end Output

variable [Scalar α]

/-- **A solution is read off** without leaving the vectors, once no row has the artificial
variable or its partner. -/
theorem Records.readOff_of (b : Basis n) (t : Tableau α n) (x : Point α n)
    (hproper : ∀ r, (b.inRow r).isArtificial = false) :
    (of b).readOff t (Output.of x) = .ok (Output.of (b.readOff t x)) := by
  have hcolumns : ((of b).nonbasic.toList.filter fun record => record.slot.index < n) =
      ((List.finRange (n + 1)).filter fun c => !(b.inColumn c).isArtificial).map fun c =>
        Record.of (b.nonbasic.get c) := by
    have hrecords : (of b).nonbasic.toList =
        (List.finRange (n + 1)).map fun c => Record.of (b.nonbasic.get c) :=
      (toList_eq_map_get _).trans (List.map_congr_left fun c _ => get_map_of _ c)
    rw [hrecords, List.filter_map]
    refine congrArg _ (List.filter_congr fun c _ => ?_)
    exact (isArtificial_eq_decide (b.inColumn c)).symm
  have hrow : ∀ (x : Point α n) (r : Fin n), r ∈ List.finRange n →
      (do
        let record ← readAt (of b).basic r.val (.placeOutOfRange r)
        (Output.of x).put record.slot (← onTableau (Tableau.Checked.constant t r))) =
      .ok (Output.of (x.put (b.inRow r) (t.constant r))) := by
    intro x r _
    have hread : ∀ fault, readAt (of b).basic r.val fault =
        .ok (.of (b.basic.get r.castSucc)) := readAt_basic b r.castSucc
    rw [hread, ok_bind, Tableau.InPlace.checked_constant, onTableau_ok, ok_bind]
    exact Output.put_of x (hproper r) _
  have hcolumn : ∀ (x : Point α n), ∀ c ∈ (List.finRange (n + 1)).filter fun c =>
        !(b.inColumn c).isArtificial,
      (Output.of x).put (Record.of (b.nonbasic.get c)).slot 0 =
        .ok (Output.of (x.put (b.inColumn c) 0)) := by
    intro x c hc
    have hc := (List.mem_filter.1 hc).2
    rw [Bool.not_eq_eq_eq_not, Bool.not_true] at hc
    exact Output.put_of x hc 0
  rw [readOff, Basis.readOff, hcolumns, foldlM_range_eq]
  rw [foldlM_eq_ok Output.of _ hrow x, ok_bind, List.foldlM_map]
  exact foldlM_eq_ok Output.of _ hcolumn _

/-! ## Notes -/

namespace Notes

variable {d : Diagnostics}

/-- **A pivot is noted** if the stride is not zero. -/
theorem pivot_of (hstride : 0 < d.every) (j : Journal n) (row : Fin n) (column : Fin (n + 1))
    (artificial : Bool) (t : Tableau α n) :
    (of j).pivot d row column artificial t =
      .ok (of (j.note d (j.pivots.length + 1) ⟨row, column⟩ artificial t)) := by
  have htraced : d.traces? (j.pivots.length + 1) = some (d.traces (j.pivots.length + 1)) := by
    have hevery : (d.enabled && d.every == 0) = false := by
      simp [hstride.ne']
    rw [Diagnostics.traces?, hevery, if_neg Bool.false_ne_true]
  rw [pivot]
  dsimp only
  change ((d.traces? (j.pivots.length + 1)).elim _ _ >>= _) = _
  rw [htraced]
  rfl

theorem close_of (j : Journal n) (event : Event) : (of j).close d event = of (j.close d event) := by
  rw [close, Journal.close]
  split <;> rfl

end Notes

/-! ## Scans -/

/-- Both buffers of a scan have room for a polynomial. -/
def Sized (n : Nat) (b : Buffers α) : Prop := b.held.length = n + 1 ∧ b.trial.length = n + 1

theorem overflowingRow_eq (t : Tableau α n) :
    overflowingRow t = .ok (t.overflowingRow.map Fin.val) := by
  rw [overflowingRow, ← List.map_coe_finRange_eq_range, Tableau.overflowingRow]
  refine findM?_map_eq_ok (g := fun r => !Scalar.isFinite (t.constant r)) Fin.val fun r _ => ?_
  rw [Tableau.InPlace.checked_constant]
  rfl

theorem Sized.visit {s : Scan Nat α} (hs : Sized n s.toBuffers) {polynomial : List α}
    (hlength : polynomial.length = n + 1) {r : Nat} :
    Sized n (s.visit (fun _ => polynomial) r).toBuffers := by
  rw [Scan.visit]
  split
  · exact ⟨hlength, hs.1⟩
  · exact ⟨hs.1, hlength⟩

/-- A candidate of a row number is looked at as `lexKeep` looks at it. -/
theorem visit_eq {fill : List α → Except TableauFault (List α)} {s : Scan Nat α} {r : Fin n}
    {polynomial : List α} (hfill : fill s.trial = .ok polynomial) :
    visit fill s r = .ok (s.visit (fun _ => polynomial) r) := by
  rw [visit, hfill]
  rfl

/-- The rows of an incumbent as numbers. -/
def numbered (best : Option (Fin n × List α)) : Option (Nat × List α) :=
  best.map fun best => (best.1.val, best.2)

theorem lexKeep_numbered (key : Fin n → List α) (best : Option (Fin n × List α)) (r : Fin n) :
    lexKeep (fun _ : Nat => key r) (numbered best) r = numbered (lexKeep key best r) := by
  cases best with
  | none => rfl
  | some best =>
    rw [numbered, Option.map_some, lexKeep, lexKeep]
    split <;> rfl

/-- **A scan of rows.**  A scan that writes the polynomials of some rows into its buffers keeps the
incumbent that `lexKeep` keeps, and the buffers keep their size. -/
theorem foldlM_visit (key : Fin n → List α) (candidate : Fin n → Bool)
    {f : Scan Nat α → Fin n → Except Fault (Scan Nat α)} (hkey : ∀ r, (key r).length = n + 1)
    (hf : ∀ (s : Scan Nat α) (r : Fin n), Sized n s.toBuffers →
      f s r = .ok (if candidate r then s.visit (fun _ => key r) r else s))
    (rows : List (Fin n)) {s : Scan Nat α} {best : Option (Fin n × List α)}
    (hsized : Sized n s.toBuffers) (hbest : s.incumbent = numbered best) :
    ∃ t, rows.foldlM f s = .ok t ∧ Sized n t.toBuffers ∧
      t.incumbent = numbered ((rows.filter candidate).foldl (lexKeep key) best) := by
  induction rows generalizing s best with
  | nil => exact ⟨s, rfl, hsized, hbest⟩
  | cons r rows ih =>
    rw [List.foldlM_cons, hf s r hsized, ok_bind, List.filter_cons]
    by_cases hr : candidate r = true
    · rw [if_pos hr, if_pos hr, List.foldl_cons]
      refine ih (hsized.visit (hkey r)) ?_
      rw [Scan.incumbent_visit, hbest, lexKeep_numbered]
    · rw [if_neg hr, if_neg hr]
      exact ih hsized hbest

/-- **The scan for the first row** finds the lowest one. -/
theorem scanLowest_eq (t : Tableau α n) (hn : 0 < n) {b : Buffers α} (hb : Sized n b) :
    ∃ s, scanLowest t b = .ok s ∧ Sized n s.toBuffers ∧ s.incumbent = numbered t.lowestRow := by
  obtain ⟨m, rfl⟩ := Nat.exists_eq_succ_of_ne_zero hn.ne'
  have hlength : ∀ r, (t.polynomial r).length = m + 1 + 1 := fun r => List.length_ofFn
  have hfill : ∀ (r : Fin (m + 1)) (out : List α), out.length = m + 1 + 1 →
      Tableau.InPlace.fillPolynomial t r id out = .ok (t.polynomial r) := fun r out hout => by
    rw [Tableau.InPlace.fillPolynomial_eq t r id hout, List.map_id]
  have hfirst : Tableau.InPlace.fillPolynomial t 0 id b.held = .ok (t.polynomial 0) :=
    hfill 0 b.held hb.1
  have hround : ∀ (s : Scan Nat α) (r : Fin (m + 1)), Sized (m + 1) s.toBuffers →
      visit (Tableau.InPlace.fillPolynomial t r id) s r =
        .ok (if true = true then s.visit (fun _ => t.polynomial r) r else s) := fun s r hs => by
    rw [visit_eq (hfill r s.trial hs.2), if_pos rfl]
  have hrows : (List.range (m + 1)).tail = ((List.finRange m).map Fin.succ).map Fin.val := by
    rw [← List.map_coe_finRange_eq_range, List.finRange_succ, List.map_cons, List.tail_cons]
  have hseeded : Sized (m + 1) (Scan.seeded 0 (t.polynomial 0) b : Scan Nat α).toBuffers :=
    ⟨hlength 0, hb.2⟩
  have hincumbent : (Scan.seeded 0 (t.polynomial 0) b : Scan Nat α).incumbent =
      numbered (some ((0 : Fin (m + 1)), t.polynomial 0)) := rfl
  obtain ⟨s, hs, hsized, hlowest⟩ := foldlM_visit t.polynomial (fun _ => true) hlength hround
    ((List.finRange m).map Fin.succ) hseeded hincumbent
  refine ⟨s, ?_, hsized, ?_⟩
  · rw [scanLowest, hfirst, onTableau_ok, ok_bind, hrows, List.foldlM_map]
    exact hs
  · rw [hlowest, Tableau.lowestRow, lexLeast, List.finRange_succ, List.foldl_cons,
      List.filter_eq_self.2 fun _ _ => rfl]
    rfl

/-- What a scan ends with is its first incumbent or one of the candidates. -/
theorem mem_of_foldl_lexKeep {key : Fin n → List α} {candidates : List (Fin n)}
    {best : Option (Fin n × List α)} {r : Fin n} {least : List α}
    (h : candidates.foldl (lexKeep key) best = some (r, least)) :
    best.map Prod.fst = some r ∨ r ∈ candidates := by
  induction candidates generalizing best with
  | nil => exact .inl (congrArg (Option.map Prod.fst) h)
  | cons i rest ih =>
    rcases ih h with hbest | hmem
    · cases best with
      | none => exact .inr (List.mem_cons.2 (.inl (Option.some.inj hbest).symm))
      | some best =>
        rw [lexKeep] at hbest
        split at hbest
        · exact .inr (List.mem_cons.2 (.inl (Option.some.inj hbest).symm))
        · exact .inl hbest
    · exact .inr (List.mem_cons_of_mem i hmem)

/-- The coefficient of the blocking row is negative. -/
theorem coefficient_neg_of_blockingRow {t : Tableau α n} {d : Fin (n + 1)} {r : Fin n}
    (h : t.blockingRow d = some r) : t.coefficient r d < 0 := by
  obtain ⟨⟨r, least⟩, hleast, rfl⟩ := Option.map_eq_some_iff.1 h
  rcases mem_of_foldl_lexKeep hleast with hnone | hmem
  · cases hnone
  · exact of_decide_eq_true (List.mem_filter.1 hmem).2

/-- **The ratio test** finds the blocking row, and its divisions have results. -/
theorem scanBlocking_eq [Scalar.NegativeDivisors α] (t : Tableau α n) (d : Fin (n + 1))
    {b : Buffers α} (hb : Sized n b) :
    ∃ s, scanBlocking t d b = .ok s ∧ Sized n s.toBuffers ∧
      s.best = (t.blockingRow d).map Fin.val := by
  have hlength : ∀ r, (t.ratio d r).length = n + 1 := fun r => List.length_ofFn
  have hround : ∀ (s : Scan Nat α) (r : Fin n), Sized n s.toBuffers →
      testRatio t d s r = .ok (if decide (t.coefficient r d < 0) = true then
        s.visit (fun _ => t.ratio d r) r else s) := by
    intro s r hs
    have hread : Tableau.Checked.entry t r d = .ok (t.coefficient r d) :=
      Tableau.InPlace.checked_entry t r (Tableau.coefficientColumn d)
    rw [testRatio, hread, onTableau_ok, ok_bind]
    by_cases hneg : t.coefficient r d < 0
    · have hdivides : Tableau.InPlace.reciprocal t r d = .ok (1 / t.coefficient r d) :=
        Tableau.InPlace.reciprocal_eq t r (Tableau.coefficientColumn d)
          (Scalar.NegativeDivisors.isDivisor_of_neg _ hneg)
      have hfill := Tableau.InPlace.fillPolynomial_eq t r
        (fun x => -(1 / t.coefficient r d) * x) hs.2
      rw [if_pos hneg, if_pos (decide_eq_true hneg), hdivides, onTableau_ok, ok_bind]
      refine visit_eq (hfill.trans (congrArg Except.ok ?_))
      rw [Tableau.ratio, Tableau.scaledPolynomial, Tableau.polynomial, List.map_ofFn]
      rfl
    · rw [if_neg hneg, if_neg (by simpa using hneg)]
      rfl
  have hblank : (Scan.blank b : Scan Nat α).incumbent =
      numbered (none : Option (Fin n × List α)) := rfl
  obtain ⟨s, hs, hsized, hincumbent⟩ := foldlM_visit (t.ratio d)
    (fun r => decide (t.coefficient r d < 0)) hlength hround (List.finRange n) hb hblank
  refine ⟨s, ?_, hsized, ?_⟩
  · rw [scanBlocking, foldlM_range_eq]
    exact hs
  · rw [← Scan.map_fst_incumbent, hincumbent, Tableau.blockingRow, lexLeast, numbered,
      Option.map_map, Option.map_map]
    rfl

end Guarded

end Complementarity
