import Mathlib
import Complementarity.Benchmark.Conversion
import Complementarity.Proofs.Loops
import Complementarity.Proofs.RoundTrip
import Complementarity.Proofs.Truncation
import Complementarity.Verification

/-!
# What the conversion of integer data accepts

An integer is representable if it is a binary64 number and a value of the scalar type.  The entries
of a problem are converted one after the other, and the first one that is refused is the error.

* **values** — `Scalar.Valued`: the numbers of a scalar type, which are those of binary64 where the
  type has them;
* **one entry** — `convertEntry_of_isRepresentable`, `convertEntry_of_not_isRepresentable`: a
  representable entry keeps its value, and another one is refused by name, with the exception of the
  greatest 64-bit integer, which becomes the next power of two (`convertEntry_greatest`);
* **all entries** — `map_entries_convert`: the conversion of a problem visits its entries in their
  order, so the first one that is refused is the error (`exists_first_of_convert`);
* **the law** — `isExactOrRefused_iff`: the conversion is exact or refused if no entry is the
  greatest 64-bit integer or an entry before it is refused, and not otherwise.
-/

namespace Complementarity

open Binary

/-! ## Values of scalars -/

/-- The numbers of a scalar type.  A binary64 number that is an integer is converted to the value
itself if the type has it, and a number that is converted and comes back is the value itself. -/
class Scalar.Valued (α : Type) [Scalar α] where
  /-- The exact value of a scalar, if it is finite. -/
  value? : α → Option ℚ
  value?_of_beq : ∀ {x : Float} {a : ℚ} {r : α}, ratOfDouble? x = some a →
    Scalar.ofDouble? x = some r → (Scalar.toDouble r == x) = true → value? r = some a
  exists_ofDouble? : ∀ {x : Float} {v : ℤ}, ratOfDouble? x = some (v : ℚ) →
    (∃ r : α, value? r = some (v : ℚ)) →
      ∃ r : α, Scalar.ofDouble? x = some r ∧ value? r = some (v : ℚ) ∧
        (Scalar.toDouble r == x) = true
  /-- The first integer beyond the 64-bit range is a value. -/
  exists_value?_bound : ∃ r : α, value? r = some (2 ^ 63)

instance : Scalar.Valued Float where
  value? := ratOfDouble?
  value?_of_beq {x a r} hx hr _ := by
    have hself : Scalar.ofDouble? x = some x := if_pos (isFinite_of_ratOfDouble? hx)
    obtain rfl : x = r := Option.some.inj (hself.symm.trans hr)
    exact hx
  exists_ofDouble? {x v} hx _ :=
    ⟨x, if_pos (isFinite_of_ratOfDouble? hx), hx, (beq_iff_of_ratOfDouble? hx hx).2 rfl⟩
  exists_value?_bound := isDouble_two_pow (by decide : 63 < 1024)

instance : Scalar.Valued ℚ where
  value? := some
  value?_of_beq hx hr _ := congrArg some (Option.some.inj (hr.symm.trans hx))
  exists_ofDouble? {x v} hx _ := by
    have hback : ratOfDouble? (Scalar.toDouble (v : ℚ)) = some (v : ℚ) :=
      ratOfDouble?_doubleOfRat ⟨x, hx⟩
        ((Rat.den_intCast v).trans_lt (one_lt_pow₀ one_lt_two (Nat.succ_ne_zero _)))
    exact ⟨v, hx, rfl, (beq_iff_of_ratOfDouble? hback hx).2 rfl⟩
  exists_value?_bound := ⟨2 ^ 63, rfl⟩

/-- The result of a conversion to binary32, if there is one. -/
theorem ofDouble?_single_eq_some_iff {x : Float} {r : Float32} :
    Scalar.ofDouble? x = some r ↔ r.isFinite = true ∧ singleOfDouble x = r := by
  show (if (singleOfDouble x).isFinite = true then some (singleOfDouble x) else none) = some r ↔ _
  constructor
  · intro h
    split at h
    · rename_i hfinite
      obtain rfl := Option.some.inj h
      exact ⟨hfinite, rfl⟩
    · cases h
  · rintro ⟨hfinite, rfl⟩
    exact if_pos hfinite

instance : Scalar.Valued Float32 where
  value? := ratOfSingle?
  value?_of_beq {x a r} hx hr hbeq := by
    obtain ⟨b, hb⟩ := isFinite_iff_ratOfSingle?.1 (ofDouble?_single_eq_some_iff.1 hr).1
    obtain rfl := (beq_iff_of_ratOfDouble? (ratOfDouble?_doubleOfSingle hb) hx).1 hbeq
    exact hb
  exists_ofDouble? {x v} hx h := by
    have hsingle := ratOfSingle?_singleOfDouble hx h
    have hback := ratOfDouble?_doubleOfSingle hsingle
    exact ⟨_, ofDouble?_single_eq_some_iff.2 ⟨isFinite_iff_ratOfSingle?.2 ⟨v, hsingle⟩, rfl⟩,
      hsingle, (beq_iff_of_ratOfDouble? hback hx).2 rfl⟩
  exists_value?_bound := ⟨singleOfInt (2 ^ 63), by decide +kernel⟩

/-- The integer is a binary64 number and a value of the scalar type. -/
def Scalar.IsRepresentable (α : Type) [Scalar α] [Scalar.Valued α] (v : ℤ) : Prop :=
  IsDouble v ∧ ∃ r : α, Valued.value? r = some (v : ℚ)

/-! ## One entry -/

namespace Benchmark

/-- The error is about this integer, and its text says so. -/
def ConversionError.Names (error : ConversionError) (v : ℤ) : Prop :=
  (error = .inexact v ∨ error = .unavailable v ∨ ∃ back, error = .unfaithful v back) ∧
    ∃ reason : String, ∀ label, error.message label = s!"{label}: {v} {reason}"

theorem ConversionError.Names.inexact (v : ℤ) : (ConversionError.inexact v).Names v := by
  refine ⟨Or.inl rfl, "is not exact in f64", fun label => ?_⟩
  simp only [message, String.append_assoc]
  rfl

theorem ConversionError.Names.unavailable (v : ℤ) : (ConversionError.unavailable v).Names v := by
  refine ⟨Or.inr (Or.inl rfl), "has no exact value", fun label => ?_⟩
  simp only [message, String.append_assoc]
  rfl

theorem ConversionError.Names.unfaithful (v : ℤ) (back : Float) :
    (ConversionError.unfaithful v back).Names v := by
  have hblank : toString " does not round-trip (" = toString " " ++ "does not round-trip (" := rfl
  refine ⟨Or.inr (Or.inr ⟨back, rfl⟩),
    "does not round-trip (" ++ (Decimal.shortest back ++ ")"), fun label => ?_⟩
  simp only [message, hblank, String.append_assoc]
  rfl

theorem ConversionError.Names.eq {error : ConversionError} {u v : ℤ} (hu : error.Names u)
    (hv : error.Names v) : u = v := by
  obtain ⟨rfl | rfl | ⟨_, rfl⟩, -⟩ := hu <;>
    obtain ⟨h | h | ⟨_, h⟩, -⟩ := hv <;> cases h <;> rfl

section Entries

variable {α : Type} [Scalar α] [Scalar.Valued α] {v : ℤ}

/-- An entry whose nearest binary64 number is an integer of the scalar type. -/
theorem convertEntry_of_value {u : ℤ} (htruncate : truncateToInt64 (doubleOfInt v) = v)
    (hvalue : ratOfDouble? (doubleOfInt v) = some (u : ℚ))
    (hu : ∃ r : α, Scalar.Valued.value? r = some (u : ℚ)) :
    ∃ r : α, convertEntry α v = .ok r ∧ Scalar.Valued.value? r = some (u : ℚ) := by
  obtain ⟨r, hr, hru, hback⟩ := Scalar.Valued.exists_ofDouble? hvalue hu
  refine ⟨r, ?_, hru⟩
  unfold convertEntry
  simp only [htruncate, ne_eq, not_true_eq_false, if_false, hr]
  exact if_pos hback

/-- **A representable entry** keeps its value. -/
theorem convertEntry_of_isRepresentable (hv : IsInt64 v) (h : Scalar.IsRepresentable α v) :
    ∃ r : α, convertEntry α v = .ok r ∧ Scalar.Valued.value? r = some (v : ℚ) := by
  have hvalue := ratOfDouble?_doubleOfInt h.1
  exact convertEntry_of_value (truncateToInt64_eq hvalue hv) hvalue h.2

/-- **The exception**: the greatest 64-bit integer becomes the next one. -/
theorem convertEntry_greatest :
    ∃ r : α, convertEntry α greatestInt64 = .ok r ∧
      Scalar.Valued.value? r = some ((2 ^ 63 : ℤ) : ℚ) := by
  refine convertEntry_of_value truncateToInt64_doubleOfInt_greatest
    ratOfDouble?_doubleOfInt_greatest ?_
  obtain ⟨r, hr⟩ := Scalar.Valued.exists_value?_bound (α := α)
  exact ⟨r, hr.trans (by norm_num)⟩

/-- **Another entry** is refused by name. -/
theorem convertEntry_of_not_isRepresentable (hne : v ≠ greatestInt64)
    (h : ¬ Scalar.IsRepresentable α v) :
    ∃ error, convertEntry α v = .error error ∧ error.Names v := by
  unfold convertEntry
  by_cases htruncate : truncateToInt64 (doubleOfInt v) = v
  · have hdouble : IsDouble v := by
      have hor := isDouble_truncateToInt64_or (doubleOfInt v)
      rw [htruncate] at hor
      exact hor.resolve_right hne
    have hvalue := ratOfDouble?_doubleOfInt hdouble
    simp only [htruncate, ne_eq, not_true_eq_false, if_false]
    cases hr : (Scalar.ofDouble? (doubleOfInt v) : Option α) with
    | none => exact ⟨_, rfl, .unavailable v⟩
    | some r =>
      have hback : ¬ (Scalar.toDouble r == doubleOfInt v) = true := fun hbeq =>
        h ⟨hdouble, r, Scalar.Valued.value?_of_beq hvalue hr hbeq⟩
      exact ⟨_, if_neg hback, .unfaithful v _⟩
  · exact ⟨_, if_pos htruncate, .inexact v⟩

end Entries

end Benchmark

/-! ## The entries of a problem -/

namespace Lcp

variable {α β : Type} {n : ℕ}

/-- The places of a problem, in the order of its entries. -/
def places (n : ℕ) : List (Fin n ⊕ Fin n × Fin n) :=
  (List.finRange n).map .inl ++ ((List.finRange n).product (List.finRange n)).map .inr

/-- The entry at a place. -/
def entryAt (p : Lcp α n) : Fin n ⊕ Fin n × Fin n → α :=
  Sum.elim p.q.get fun place => p.m.entry place.1 place.2

theorem entries_eq_flatMap (m : Dense α n n) :
    m.entries = (List.finRange n).flatMap fun i => (m.row i).toList := by
  rw [Dense.entries, toList_eq_map_get, List.flatMap_map]
  rfl

theorem entries_eq_map (p : Lcp α n) : p.entries = (places n).map p.entryAt := by
  rw [entries, entries_eq_flatMap, toList_eq_map_get, places, List.map_append, List.map_map,
    List.map_map, List.product, List.map_flatMap]
  simp only [toList_eq_map_get, List.map_map]
  rfl

/-- Two problems of one dimension have their entries at the same places. -/
theorem forall₂_entries {R : α → β → Prop} {p : Lcp α n} {p' : Lcp β n}
    (h : List.Forall₂ R p.entries p'.entries) :
    (∀ i, R (p.q.get i) (p'.q.get i)) ∧ ∀ i j, R (p.m.entry i j) (p'.m.entry i j) := by
  rw [entries_eq_map, entries_eq_map, List.forall₂_map_left_iff, List.forall₂_map_right_iff,
    List.forall₂_same] at h
  exact ⟨fun i => h (.inl i) (by simp [places]), fun i j => h (.inr (i, j)) (by simp [places])⟩

/-- What holds of all members of the list holds of all entries. -/
theorem forall_mem_entries_iff {P : α → Prop} {p : Lcp α n} :
    (∀ a ∈ p.entries, P a) ↔ (∀ i, P (p.q.get i)) ∧ ∀ i j, P (p.m.entry i j) := by
  rw [entries, List.forall_mem_append, forall_mem_toList_iff, Dense.forall_mem_entries_iff]

end Lcp

namespace Benchmark

section Problems

variable {α : Type} [Scalar α] {n : ℕ} (p : Lcp ℤ n)

/-- **The conversion of a problem** is a traversal of its entries. -/
theorem map_entries_convert :
    (convert α p).map Lcp.entries = p.entries.mapM (convertEntry α) := by
  have hrow : ∀ i, (Vector.ofFnM fun j => do
      convertEntry α (← (.ok (p.m.entry i j) : Except ConversionError ℤ))).map Vector.toList =
        (p.m.row i).toList.mapM (convertEntry α) := by
    intro i
    have hround : ∀ j, (convertEntry α (p.m.entry i j)).map (fun r => [r]) =
        [p.m.entry i j].mapM (convertEntry α) := by
      intro j
      rw [List.mapM_cons, List.mapM_nil]
      cases convertEntry α (p.m.entry i j) <;> rfl
    have hloop := map_ofFnM hround
    simp only [List.flatMap_singleton', ← List.map_eq_flatMap] at hloop
    rw [toList_eq_map_get]
    exact hloop
  have hmatrix := map_ofFnM hrow
  rw [← Lcp.entries_eq_flatMap] at hmatrix
  rw [Lcp.entries, List.mapM_append, ← map_toList_mapM, ← hmatrix]
  unfold convert convertData
  cases p.q.mapM (convertEntry α) with
  | error e => rfl
  | ok q =>
    cases Vector.ofFnM fun i => Vector.ofFnM fun j => do
      convertEntry α (← (.ok (p.m.entry i j) : Except ConversionError ℤ)) with
    | error e => rfl
    | ok rows => rfl

variable {p}

/-- What is converted consists of the converted entries. -/
theorem convertEntry_of_convert {s : Lcp α n} (h : convert α p = .ok s) :
    (∀ i, convertEntry α (p.q.get i) = .ok (s.q.get i)) ∧
      ∀ i j, convertEntry α (p.m.entry i j) = .ok (s.m.entry i j) := by
  have htraversal := map_entries_convert (α := α) p
  rw [h] at htraversal
  exact Lcp.forall₂_entries (mapM_eq_ok_iff.1 htraversal.symm)

/-- The error of a conversion is that of the first entry that is refused. -/
theorem exists_first_of_convert {error : ConversionError} (h : convert α p = .error error) :
    ∃ before v after, p.entries = before ++ v :: after ∧
      (∀ u ∈ before, ∃ r, convertEntry α u = .ok r) ∧ convertEntry α v = .error error := by
  have htraversal := map_entries_convert (α := α) p
  rw [h] at htraversal
  exact mapM_eq_error_iff.1 htraversal.symm

variable [Scalar.Valued α]

/-- The integer whose value an accepted entry gets. -/
def acceptedAs (v : ℤ) : ℤ := if v = greatestInt64 then 2 ^ 63 else v

theorem acceptedAs_of_isRepresentable {v : ℤ} (h : Scalar.IsRepresentable α v) :
    acceptedAs v = v := by
  refine if_neg ?_
  rintro rfl
  exact not_isDouble_greatestInt64 h.1

/-- An entry that is accepted. -/
theorem of_convertEntry_eq_ok {v : ℤ} {r : α} (hv : IsInt64 v) (h : convertEntry α v = .ok r) :
    Scalar.Valued.value? r = some (acceptedAs v : ℚ) ∧
      (Scalar.IsRepresentable α v ∨ v = greatestInt64) := by
  by_cases hrep : Scalar.IsRepresentable α v
  · obtain ⟨r', hr', hvalue⟩ := convertEntry_of_isRepresentable hv hrep
    obtain rfl := Except.ok.inj (h.symm.trans hr')
    rw [acceptedAs_of_isRepresentable hrep]
    exact ⟨hvalue, Or.inl hrep⟩
  · by_cases hgreatest : v = greatestInt64
    · subst hgreatest
      obtain ⟨r', hr', hvalue⟩ := convertEntry_greatest (α := α)
      obtain rfl := Except.ok.inj (h.symm.trans hr')
      exact ⟨hvalue, Or.inr rfl⟩
    · obtain ⟨error, herror, -⟩ := convertEntry_of_not_isRepresentable hgreatest hrep
      cases h.symm.trans herror

/-- An entry that is refused. -/
theorem of_convertEntry_eq_error {v : ℤ} {error : ConversionError} (hv : IsInt64 v)
    (h : convertEntry α v = .error error) :
    error.Names v ∧ ¬ Scalar.IsRepresentable α v ∧ v ≠ greatestInt64 := by
  have hrep : ¬ Scalar.IsRepresentable α v := by
    intro hrep
    obtain ⟨r, hr, -⟩ := convertEntry_of_isRepresentable hv hrep
    cases h.symm.trans hr
  have hgreatest : v ≠ greatestInt64 := by
    rintro rfl
    obtain ⟨r, hr, -⟩ := convertEntry_greatest (α := α)
    cases h.symm.trans hr
  obtain ⟨error', herror, hnames⟩ := convertEntry_of_not_isRepresentable hgreatest hrep
  obtain rfl := Except.error.inj (h.symm.trans herror)
  exact ⟨hnames, hrep, hgreatest⟩

/-! ## The law -/

/-- **Values.**  What is converted has the values of the entries, up to the exception. -/
theorem value?_of_convert (hp : ∀ v ∈ p.entries, IsInt64 v) {s : Lcp α n}
    (h : convert α p = .ok s) :
    (∀ i, Scalar.Valued.value? (s.q.get i) = some (acceptedAs (p.q.get i) : ℚ)) ∧
      ∀ i j, Scalar.Valued.value? (s.m.entry i j) = some (acceptedAs (p.m.entry i j) : ℚ) := by
  obtain ⟨hq, hm⟩ := Lcp.forall_mem_entries_iff.1 hp
  obtain ⟨hconstants, hentries⟩ := convertEntry_of_convert h
  exact ⟨fun i => (of_convertEntry_eq_ok (hq i) (hconstants i)).1,
    fun i j => (of_convertEntry_eq_ok (hm i j) (hentries i j)).1⟩

variable (α p) in
/-- **The law of exact conversion.**  The conversion succeeds if all entries are representable and
then keeps their values; otherwise its error names the first entry that is not. -/
structure IsExactOrRefused : Prop where
  accepted_iff : (∃ s, convert α p = .ok s) ↔ ∀ v ∈ p.entries, Scalar.IsRepresentable α v
  value_eq : ∀ {s}, convert α p = .ok s →
    (∀ i, Scalar.Valued.value? (s.q.get i) = some (p.q.get i : ℚ)) ∧
      ∀ i j, Scalar.Valued.value? (s.m.entry i j) = some (p.m.entry i j : ℚ)
  names_first : ∀ {error}, convert α p = .error error →
    ∃ before v after, p.entries = before ++ v :: after ∧
      (∀ u ∈ before, Scalar.IsRepresentable α u) ∧ ¬ Scalar.IsRepresentable α v ∧ error.Names v

variable (α p) in
/-- Every entry that is the greatest 64-bit integer stands behind one that is not representable. -/
def GreatestIsHidden : Prop :=
  ∀ before after, p.entries = before ++ greatestInt64 :: after →
    ∃ v ∈ before, ¬ Scalar.IsRepresentable α v

/-- If a beginning of the entries is accepted, all of it is representable. -/
theorem GreatestIsHidden.forall_isRepresentable (hidden : GreatestIsHidden α p)
    (hp : ∀ v ∈ p.entries, IsInt64 v) {before after : List ℤ}
    (hsplit : p.entries = before ++ after) (h : ∀ v ∈ before, ∃ r, convertEntry α v = .ok r) :
    ∀ v ∈ before, Scalar.IsRepresentable α v := by
  by_contra hnot
  obtain ⟨before', v, after', rfl, hbefore', hv⟩ := exists_first_not hnot
  have hmem : v ∈ before' ++ v :: after' := List.mem_append_right _ List.mem_cons_self
  obtain ⟨r, hr⟩ := h v hmem
  have hint : IsInt64 v := hp v (hsplit ▸ List.mem_append_left _ hmem)
  -- an entry that is accepted without being representable is the greatest integer
  obtain rfl := (of_convertEntry_eq_ok hint hr).2.resolve_left hv
  obtain ⟨u, hu, hurep⟩ := hidden before' (after' ++ after) (by simp [hsplit])
  exact hurep (hbefore' u hu)

/-- The first entry that is not representable hides what comes behind it. -/
theorem GreatestIsHidden.of_first {before after : List ℤ} {v : ℤ}
    (hsplit : p.entries = before ++ v :: after) (hbefore : greatestInt64 ∉ before)
    (hne : v ≠ greatestInt64) (hv : ¬ Scalar.IsRepresentable α v) : GreatestIsHidden α p := by
  intro before' after' hsplit'
  rcases List.append_eq_append_iff.1 (hsplit.symm.trans hsplit') with
    ⟨between, rfl, hrest⟩ | ⟨between, rfl, hrest⟩
  · cases between with
    | nil => exact absurd (List.cons.inj hrest).1 hne
    | cons u between =>
      obtain ⟨rfl, -⟩ := List.cons.inj hrest
      exact ⟨v, List.mem_append_right _ List.mem_cons_self, hv⟩
  · cases between with
    | nil => exact absurd (List.cons.inj hrest).1.symm hne
    | cons u between =>
      obtain ⟨rfl, -⟩ := List.cons.inj hrest
      exact absurd (List.mem_append_right _ List.mem_cons_self) hbefore

/-- Where the law holds, the first entry that is not representable is refused by name. -/
theorem IsExactOrRefused.exists_error (law : IsExactOrRefused α p) {before after : List ℤ} {v : ℤ}
    (hsplit : p.entries = before ++ v :: after)
    (hbefore : ∀ u ∈ before, Scalar.IsRepresentable α u) (hv : ¬ Scalar.IsRepresentable α v) :
    ∃ error, convert α p = .error error ∧ error.Names v := by
  cases hconvert : convert α p with
  | ok s =>
    have hmem : v ∈ p.entries := hsplit ▸ List.mem_append_right _ List.mem_cons_self
    exact absurd (law.accepted_iff.1 ⟨s, hconvert⟩ v hmem) hv
  | error error =>
    obtain ⟨before', v', after', hsplit', hbefore', hv', hnames⟩ := law.names_first hconvert
    obtain rfl := first_not_unique (hsplit.symm.trans hsplit') hbefore hv hbefore' hv'
    exact ⟨error, rfl, hnames⟩

/-- The greatest integer is refused nowhere, so where the law holds an entry before it is. -/
theorem IsExactOrRefused.greatestIsHidden (hp : ∀ v ∈ p.entries, IsInt64 v)
    (law : IsExactOrRefused α p) : GreatestIsHidden α p := by
  intro before after hsplit
  by_contra hnot
  have hbefore : ∀ v ∈ before, Scalar.IsRepresentable α v := fun v hv =>
    not_not.1 fun hrep => hnot ⟨v, hv, hrep⟩
  obtain ⟨error, herror, hnames⟩ := law.exists_error hsplit hbefore fun h =>
    not_isDouble_greatestInt64 h.1
  -- the error names the greatest integer, but it is that of an entry that was refused
  obtain ⟨_, u, _, hsplit', -, hu⟩ := exists_first_of_convert herror
  have hint : IsInt64 u := hp u (hsplit' ▸ List.mem_append_right _ List.mem_cons_self)
  have hrefused := of_convertEntry_eq_error hint hu
  exact hrefused.2.2 (hrefused.1.eq hnames)

/-- Where the greatest integer is hidden, all entries of a problem that is converted are
representable. -/
theorem GreatestIsHidden.forall_of_convert (hidden : GreatestIsHidden α p)
    (hp : ∀ v ∈ p.entries, IsInt64 v) {s : Lcp α n} (h : convert α p = .ok s) :
    ∀ v ∈ p.entries, Scalar.IsRepresentable α v := by
  obtain ⟨hconstants, hentries⟩ := convertEntry_of_convert h
  refine hidden.forall_isRepresentable hp (List.append_nil _).symm ?_
  exact Lcp.forall_mem_entries_iff.2 ⟨fun i => ⟨_, hconstants i⟩, fun i j => ⟨_, hentries i j⟩⟩

theorem GreatestIsHidden.isExactOrRefused (hidden : GreatestIsHidden α p)
    (hp : ∀ v ∈ p.entries, IsInt64 v) : IsExactOrRefused α p where
  accepted_iff := by
    refine ⟨fun ⟨s, hs⟩ => hidden.forall_of_convert hp hs, fun hall => ?_⟩
    cases hconvert : convert α p with
    | ok s => exact ⟨s, rfl⟩
    | error error =>
      obtain ⟨_, u, _, hsplit, -, hu⟩ := exists_first_of_convert hconvert
      have hmem : u ∈ p.entries := hsplit ▸ List.mem_append_right _ List.mem_cons_self
      exact absurd (hall u hmem) (of_convertEntry_eq_error (hp u hmem) hu).2.1
  value_eq {s} hs := by
    obtain ⟨hq, hm⟩ := Lcp.forall_mem_entries_iff.1 (hidden.forall_of_convert hp hs)
    obtain ⟨hconstants, hentries⟩ := value?_of_convert hp hs
    refine ⟨fun i => ?_, fun i j => ?_⟩
    · rw [hconstants, acceptedAs_of_isRepresentable (hq i)]
    · rw [hentries, acceptedAs_of_isRepresentable (hm i j)]
  names_first {error} herror := by
    obtain ⟨before, v, after, hsplit, hbefore, hv⟩ := exists_first_of_convert herror
    have hint : IsInt64 v := hp v (hsplit ▸ List.mem_append_right _ List.mem_cons_self)
    have hrefused := of_convertEntry_eq_error hint hv
    exact ⟨before, v, after, hsplit, hidden.forall_isRepresentable hp hsplit hbefore,
      hrefused.2.1, hrefused.1⟩

/-- **When the law holds.** -/
theorem isExactOrRefused_iff (hp : ∀ v ∈ p.entries, IsInt64 v) :
    IsExactOrRefused α p ↔ GreatestIsHidden α p :=
  ⟨fun law => law.greatestIsHidden hp, fun hidden => hidden.isExactOrRefused hp⟩

end Problems

/-- **Exact or refused**, for the three scalar types: the law of exact conversion holds of a problem
with 64-bit entries unless the greatest of these integers comes before every entry that is not
representable. -/
theorem convert_isExactOrRefused_iff {n : ℕ} (p : Lcp ℤ n) (hp : ∀ v ∈ p.entries, IsInt64 v) :
    (IsExactOrRefused Float p ↔ GreatestIsHidden Float p) ∧
      (IsExactOrRefused Float32 p ↔ GreatestIsHidden Float32 p) ∧
      (IsExactOrRefused ℚ p ↔ GreatestIsHidden ℚ p) :=
  ⟨isExactOrRefused_iff hp, isExactOrRefused_iff hp, isExactOrRefused_iff hp⟩

/-- A problem whose second constant has 54 bits, before entries that are the greatest integer. -/
def wide : Lcp ℤ 2 :=
  ⟨#v[3, 2 ^ 53 + 1], Dense.ofFn fun i j => if i = j then 9223372036854775807 else -1⟩

/-- An integer that is rounded when it is converted is not representable. -/
theorem not_isRepresentable_wide (α : Type) [Scalar α] [Scalar.Valued α] :
    ¬ Scalar.IsRepresentable α (2 ^ 53 + 1) := by
  rintro ⟨hdouble, -⟩
  have hback := truncateToInt64_eq (ratOfDouble?_doubleOfInt hdouble) (by decide)
  exact absurd hback (by decide +kernel)

/-- The law at constants of two and of 54 bits: the second one is refused by name, and the greatest
integers behind it do no harm. -/
theorem isExactOrRefused_wide : (∀ v ∈ wide.entries, IsInt64 v) ∧
    (IsExactOrRefused Float wide ∧ IsExactOrRefused Float32 wide ∧ IsExactOrRefused ℚ wide) ∧
    (∃ r, convertEntry Float 3 = .ok r) ∧
    ∃ error, convert Float wide = .error error ∧ error.Names (2 ^ 53 + 1) := by
  have hint : ∀ v ∈ wide.entries, IsInt64 v := by decide
  have hsplit : wide.entries = [3] ++ (2 ^ 53 + 1) :: [greatestInt64, -1, -1, greatestInt64] := by
    decide
  have hthree : Scalar.IsRepresentable Float 3 :=
    have hdouble : IsDouble (3 : ℤ) := isDouble_intCast (by decide)
    ⟨hdouble, hdouble⟩
  obtain ⟨hdouble, hsingle, hrational⟩ := convert_isExactOrRefused_iff wide hint
  have law : IsExactOrRefused Float wide :=
    hdouble.2 (.of_first hsplit (by decide) (by decide) (not_isRepresentable_wide Float))
  refine ⟨hint, ⟨law, ?_, ?_⟩, ?_, ?_⟩
  · exact hsingle.2 (.of_first hsplit (by decide) (by decide) (not_isRepresentable_wide Float32))
  · exact hrational.2 (.of_first hsplit (by decide) (by decide) (not_isRepresentable_wide ℚ))
  · obtain ⟨r, hr, -⟩ := convertEntry_of_isRepresentable (hint 3 (by decide)) hthree
    exact ⟨r, hr⟩
  · refine law.exists_error hsplit (fun u hu => ?_) (not_isRepresentable_wide Float)
    obtain rfl := List.mem_singleton.1 hu
    exact hthree

/-- The problem of dimension one with this constant. -/
def withConstant (v : ℤ) : Lcp ℤ 1 := ⟨#v[v], Dense.ofFn fun _ _ => 1⟩

/-- The greatest 64-bit integer is accepted as a constant, although it is not a binary64 number. -/
theorem not_isExactOrRefused_greatest :
    ¬ IsExactOrRefused Float (withConstant 9223372036854775807) := by
  intro law
  have haccepted : ∃ s, convert Float (withConstant 9223372036854775807) = .ok s := by
    have hok : (convert Float (withConstant 9223372036854775807)).toOption.isSome = true := by
      decide +kernel
    cases hconvert : convert Float (withConstant 9223372036854775807) with
    | ok s => exact ⟨s, rfl⟩
    | error error =>
      rw [hconvert] at hok
      cases hok
  have hrepresentable := law.accepted_iff.1 haccepted greatestInt64 (by decide)
  exact not_isDouble_greatestInt64 hrepresentable.1

end Benchmark

end Complementarity
