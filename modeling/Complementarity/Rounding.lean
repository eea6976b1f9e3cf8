/-!
# Rounding a quotient to an integer

Every approximation in this library, whether to a binary format or to decimal places, is one
division of natural numbers that has to end in an integer.  This file fixes the rule: the nearest
integer is taken, and a quotient half-way between two integers goes to the even one.

* `divNearestEven_mul`: an exact quotient is returned as it is;
* `divNearestEven_eq_or`: the result is the quotient rounded down or up, by the remainder.
-/

namespace Complementarity

/-- `num / den` rounded to the nearest integer, a tie going to the even neighbour. -/
def divNearestEven (num den : Nat) : Nat :=
  let quotient := num / den
  let twice := 2 * (num % den)
  if twice < den then quotient
  else if den < twice then quotient + 1
  else if quotient % 2 = 0 then quotient
  else quotient + 1

/-- An exact quotient needs no rounding. -/
theorem divNearestEven_mul {den : Nat} (k : Nat) (hden : 0 < den) :
    divNearestEven (k * den) den = k := by
  simp [divNearestEven, Nat.mul_mod_left, Nat.mul_div_cancel k hden, hden]

/-- The quotient is rounded down if the remainder is at most half the divisor, and up only if it is
at least that. -/
theorem divNearestEven_eq_or (num den : Nat) :
    (divNearestEven num den = num / den ∧ 2 * (num % den) ≤ den) ∨
      (divNearestEven num den = num / den + 1 ∧ den ≤ 2 * (num % den)) := by
  unfold divNearestEven
  dsimp only
  split
  · omega
  · split
    · omega
    · split <;> omega

end Complementarity
