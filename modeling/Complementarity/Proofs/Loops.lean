import Mathlib.Data.List.FinRange
import Mathlib.Data.List.Forall2
import Mathlib.Tactic.Basic

/-!
# Loops that may fail

A loop over a list or a vector stops at the first member that fails.

* `mapM_eq_ok_iff`, `mapM_eq_error_iff`: when a traversal of a list succeeds, and with which error
  it fails;
* `map_toList_mapM`, `map_ofFnM`: loops over vectors are traversals of lists, and nested loops one
  traversal;
* `foldlM_finRange_eq_ok`, `foldlM_range_eq_ok`: a counted loop none of whose rounds fails passes
  through the states that the rounds lead to.
-/

namespace Complementarity

variable {ε ι β γ σ : Type} {n : Nat}

/-! ## Steps -/

@[simp] theorem ok_bind (x : β) (f : β → Except ε γ) : (Except.ok x >>= f) = f x := rfl

@[simp] theorem pure_eq_ok (x : β) : (pure x : Except ε β) = .ok x := rfl

theorem map_eq_error_iff {x : Except ε β} {f : β → γ} {e : ε} :
    x.map f = .error e ↔ x = .error e := by
  cases x with
  | ok y => exact iff_of_false (fun h => by cases h) fun h => by cases h
  | error e' =>
    exact ⟨fun h => congrArg Except.error (Except.error.inj h), fun h =>
      congrArg Except.error (Except.error.inj h)⟩

/-! ## Lists -/

theorem mapM_eq_ok_iff {f : ι → Except ε β} {xs : List ι} {ys : List β} :
    xs.mapM f = .ok ys ↔ List.Forall₂ (fun x y => f x = .ok y) xs ys := by
  induction xs generalizing ys with
  | nil =>
    rw [List.mapM_nil, List.forall₂_nil_left_iff]
    exact ⟨fun h => (Except.ok.inj h).symm, fun h => congrArg Except.ok h.symm⟩
  | cons x xs ih =>
    rw [List.mapM_cons, List.forall₂_cons_left_iff]
    cases hx : f x with
    | error e =>
      refine iff_of_false (fun h => by cases h) ?_
      rintro ⟨y, ys', h, -⟩
      cases h
    | ok y =>
      cases hxs : xs.mapM f with
      | error e =>
        refine iff_of_false (fun h => by cases h) ?_
        rintro ⟨y', ys', -, h, -⟩
        rw [ih.2 h] at hxs
        cases hxs
      | ok ys' =>
        constructor
        · intro h
          exact ⟨y, ys', rfl, ih.1 hxs, (Except.ok.inj h).symm⟩
        · rintro ⟨y', ys'', hy, h, rfl⟩
          obtain rfl := Except.ok.inj hy
          obtain rfl := Except.ok.inj (hxs.symm.trans (ih.2 h))
          rfl

/-- A loop that does to one kind of state what a loop that cannot fail does to another kind. -/
theorem foldlM_eq_ok {τ : Type} (embed : τ → σ) (g : τ → ι → τ) {f : σ → ι → Except ε σ}
    {xs : List ι} (h : ∀ t, ∀ x ∈ xs, f (embed t) x = .ok (embed (g t x))) (t : τ) :
    xs.foldlM f (embed t) = .ok (embed (xs.foldl g t)) := by
  induction xs generalizing t with
  | nil => rfl
  | cons x xs ih =>
    rw [List.foldlM_cons, h t x List.mem_cons_self, ok_bind, List.foldl_cons]
    exact ih (fun t x hx => h t x (List.mem_cons_of_mem _ hx)) (g t x)

theorem findM?_map_eq_ok {τ : Type} (e : τ → ι) {f : ι → Except ε Bool} {g : τ → Bool}
    {xs : List τ} (h : ∀ x ∈ xs, f (e x) = .ok (g x)) :
    (xs.map e).findM? f = .ok ((xs.find? g).map e) := by
  induction xs with
  | nil => rfl
  | cons x xs ih =>
    rw [List.map_cons, List.findM?, h x List.mem_cons_self, ok_bind, List.find?_cons]
    cases g x with
    | true => rfl
    | false => exact ih fun x hx => h x (List.mem_cons_of_mem _ hx)

theorem findSomeM?_map_eq_ok {τ : Type} (e : τ → ι) {f : ι → Except ε (Option β)}
    {g : τ → Option β} {xs : List τ} (h : ∀ x ∈ xs, f (e x) = .ok (g x)) :
    (xs.map e).findSomeM? f = .ok (xs.findSome? g) := by
  induction xs with
  | nil => rfl
  | cons x xs ih =>
    rw [List.map_cons, List.findSomeM?, h x List.mem_cons_self, ok_bind, List.findSome?_cons]
    cases g x with
    | some y => rfl
    | none => exact ih fun x hx => h x (List.mem_cons_of_mem _ hx)

theorem mapM_eq_ok_map {f : ι → Except ε β} {g : ι → β} {xs : List ι}
    (h : ∀ x ∈ xs, f x = .ok (g x)) : xs.mapM f = .ok (xs.map g) := by
  rw [mapM_eq_ok_iff, List.forall₂_map_right_iff, List.forall₂_same]
  exact h

/-- What is found behind a beginning of a list is its first member or behind that. -/
theorem exists_split_cons_iff {P Q : ι → Prop} {a : ι} {xs : List ι} :
    (∃ before x after, a :: xs = before ++ x :: after ∧ (∀ b ∈ before, P b) ∧ Q x) ↔
      Q a ∨ P a ∧ ∃ before x after, xs = before ++ x :: after ∧ (∀ b ∈ before, P b) ∧ Q x := by
  constructor
  · rintro ⟨_ | ⟨b, before⟩, x, after, h, hbefore, hx⟩
    · obtain ⟨rfl, rfl⟩ := List.cons.inj h
      exact .inl hx
    · obtain ⟨rfl, rfl⟩ := List.cons.inj h
      obtain ⟨ha, hbefore⟩ := List.forall_mem_cons.1 hbefore
      exact .inr ⟨ha, before, x, after, rfl, hbefore, hx⟩
  · rintro (ha | ⟨ha, before, x, after, rfl, hbefore, hx⟩)
    · exact ⟨[], a, xs, rfl, by simp, ha⟩
    · exact ⟨a :: before, x, after, rfl, List.forall_mem_cons.2 ⟨ha, hbefore⟩, hx⟩

/-- **The first refusal.**  A traversal fails where the first member is refused. -/
theorem mapM_eq_error_iff {f : ι → Except ε β} {xs : List ι} {e : ε} :
    xs.mapM f = .error e ↔ ∃ before x after, xs = before ++ x :: after ∧
      (∀ b ∈ before, ∃ y, f b = .ok y) ∧ f x = .error e := by
  induction xs with
  | nil =>
    rw [List.mapM_nil]
    refine iff_of_false (fun h => by cases h) ?_
    rintro ⟨before, x, after, h, -⟩
    simp at h
  | cons x xs ih =>
    rw [List.mapM_cons, exists_split_cons_iff, ← ih]
    cases f x with
    | error e' =>
      refine ⟨fun h => .inl (congrArg Except.error (Except.error.inj h)), ?_⟩
      rintro (h | ⟨⟨y, hy⟩, -⟩)
      · exact congrArg Except.error (Except.error.inj h)
      · cases hy
    | ok y =>
      cases xs.mapM f with
      | error e' =>
        refine ⟨fun h => .inr ⟨⟨y, rfl⟩, h⟩, ?_⟩
        rintro (h | ⟨-, h⟩)
        · cases h
        · exact h
      | ok ys =>
        refine iff_of_false (fun h => by cases h) ?_
        rintro (h | ⟨-, h⟩) <;> cases h

/-- A list whose members do not all have a property has a first one without it. -/
theorem exists_first_not {P : ι → Prop} {xs : List ι} (h : ¬ ∀ x ∈ xs, P x) :
    ∃ before x after, xs = before ++ x :: after ∧ (∀ b ∈ before, P b) ∧ ¬ P x := by
  induction xs with
  | nil => exact absurd (by simp) h
  | cons x xs ih =>
    rw [exists_split_cons_iff]
    by_cases hx : P x
    · exact .inr ⟨hx, ih fun hxs => h (List.forall_mem_cons.2 ⟨hx, hxs⟩)⟩
    · exact .inl hx

/-- There is one first member without a property. -/
theorem first_not_unique {P : ι → Prop} {before before' after after' : List ι} {x x' : ι}
    (h : before ++ x :: after = before' ++ x' :: after') (hbefore : ∀ b ∈ before, P b)
    (hx : ¬ P x) (hbefore' : ∀ b ∈ before', P b) (hx' : ¬ P x') : x = x' := by
  induction before generalizing before' with
  | nil =>
    cases before' with
    | nil => exact (List.cons.inj h).1
    | cons b before' =>
      obtain ⟨rfl, -⟩ := List.cons.inj h
      exact absurd (List.forall_mem_cons.1 hbefore').1 hx
  | cons b before ih =>
    cases before' with
    | nil =>
      obtain ⟨rfl, -⟩ := List.cons.inj h
      exact absurd (List.forall_mem_cons.1 hbefore).1 hx'
    | cons b' before' =>
      exact ih (List.cons.inj h).2 (List.forall_mem_cons.1 hbefore).2
        (List.forall_mem_cons.1 hbefore').2

/-! ## Vectors -/

theorem toList_eq_map_get (v : Vector ι n) : v.toList = (List.finRange n).map v.get :=
  List.ext_getElem (by simp) fun i hi _ => by simp [Vector.get]

theorem ofFnM_eq_ok {f : Fin n → Except ε β} {g : Fin n → β} (h : ∀ i, f i = .ok (g i)) :
    Vector.ofFnM f = .ok (Vector.ofFn g) := by
  have hf : f = fun i => pure (g i) := funext h
  rw [hf]
  exact Vector.ofFnM_pure

/-- A vector is traversed as the list of its members. -/
theorem map_toList_mapM (f : ι → Except ε β) (v : Vector ι n) :
    (v.mapM f).map Vector.toList = v.toList.mapM f := by
  have harray : Vector.toArray <$> v.mapM f = v.toArray.mapM f := Vector.toArray_mapM
  have hlist : Array.toList <$> v.toArray.mapM f = v.toList.mapM f := Array.toList_mapM
  rw [← hlist, ← harray]
  cases v.mapM f <;> rfl

/-- A loop whose rounds traverse lists traverses them one after the other. -/
theorem map_ofFnM {n : ℕ} {f : ι → Except ε β} {round : Fin n → Except ε γ} {out : γ → List β}
    {xs : Fin n → List ι} (h : ∀ i, (round i).map out = (xs i).mapM f) :
    (Vector.ofFnM round).map (fun v => v.toList.flatMap out) =
      ((List.finRange n).flatMap xs).mapM f := by
  induction n with
  | zero =>
    rw [Vector.ofFnM_zero]
    rfl
  | succ n ih =>
    have hinit := ih fun i => h i.castSucc
    have hlast := h (Fin.last n)
    rw [Vector.ofFnM_succ, List.finRange_succ_last, List.flatMap_append, List.mapM_append,
      List.flatMap_map, ← hinit, List.flatMap_singleton, ← hlast]
    cases Vector.ofFnM fun i => round i.castSucc with
    | error e => rfl
    | ok init =>
      cases round (Fin.last n) with
      | error e => rfl
      | ok last => simp [bind, Except.bind, Except.map, pure, Except.pure, Vector.toList_push]

/-! ## Counted loops -/

/-- **A counted loop** ends in the state that its rounds lead to, one after the other. -/
theorem foldlM_finRange_eq_ok {m : ℕ} {f : σ → Fin m → Except ε σ} {s : ℕ → σ}
    (h : ∀ i : Fin m, f (s i) i = .ok (s (i + 1))) :
    (List.finRange m).foldlM f (s 0) = .ok (s m) := by
  induction m with
  | zero => rfl
  | succ m ih =>
    have hlast : f (s m) (Fin.last m) = .ok (s (m + 1)) := h (Fin.last m)
    rw [List.finRange_succ_last, List.foldlM_append, List.foldlM_map, ih fun i => h i.castSucc]
    simp [hlast]

theorem foldlM_range_eq {m : ℕ} (f : σ → ℕ → Except ε σ) (s : σ) :
    (List.range m).foldlM f s = (List.finRange m).foldlM (fun s i => f s i.val) s := by
  rw [← List.map_coe_finRange_eq_range, List.foldlM_map]

/-- A counted loop over plain numbers. -/
theorem foldlM_range_eq_ok {m : ℕ} {f : σ → ℕ → Except ε σ} {s : ℕ → σ}
    (h : ∀ i < m, f (s i) i = .ok (s (i + 1))) : (List.range m).foldlM f (s 0) = .ok (s m) := by
  rw [foldlM_range_eq]
  exact foldlM_finRange_eq_ok (fun i : Fin m => h i.val i.isLt)

end Complementarity
