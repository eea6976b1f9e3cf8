/-!
# Coordinates of vectors

A vector is known by its coordinates `v.get i`.  The lemmas below say what the coordinates are of a
vector that is built from a function, and of one in which a coordinate has been set.
-/

namespace Complementarity

variable {α : Type} {n : Nat}

/-- The vector of the values of a function holds these values. -/
@[simp] theorem vector_get_ofFn (f : Fin n → α) (i : Fin n) : (Vector.ofFn f).get i = f i :=
  Vector.getElem_ofFn i.isLt

/-- Setting a coordinate changes that one and no other. -/
theorem vector_get_set (v : Vector α n) (i j : Fin n) (x : α) :
    (v.set i.val x i.isLt).get j = if i = j then x else v.get j := by
  have h : (v.set i.val x i.isLt).get j = if i.val = j.val then x else v.get j :=
    Vector.getElem_set i.isLt j.isLt
  simpa only [Fin.ext_iff] using h

/-- Two vectors with the same coordinates are equal. -/
theorem vector_ext {v v' : Vector α n} (h : ∀ i, v.get i = v'.get i) : v = v' :=
  Vector.ext fun i hi => h ⟨i, hi⟩

end Complementarity
