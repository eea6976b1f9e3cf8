/-!
# Uniform integers from random words

A source of random 64-bit words yields uniform integers of an interval by multiplication: a word
`v` falls into the part number `v * range / 2 ^ 64` of `range` nearly equal parts.  Words at the
end of a part, where the low half of the product exceeds a bound, are passed over, which makes all
parts that remain equally large.

At least every second word is accepted, whatever the interval is.  After `attempts` words that are
passed over, the next one is taken as it is, so that a draw ends for every source.
-/

namespace Complementarity.Random

/-- A source of random words. -/
class Source (σ : Type) where
  /-- The next word, and the source after it. -/
  next : σ → UInt64 × σ

/-- The next word. -/
def word {σ : Type} [Source σ] : StateM σ UInt64 := fun source => Source.next source

/-- The number of words that are looked at before one is taken unconditionally. -/
def attempts : Nat := 256

/-- The largest low half of a product that is accepted: the largest number of the form
`range * 2 ^ k - 1` below `2 ^ 64`. -/
def zone (range : Nat) : Nat := range * Nat.pow 2 (63 - range.log2) - 1

/-- A number below `range`. -/
def below {σ : Type} [Source σ] (range : Nat) : Nat → StateM σ Nat
  | 0 => do return (← word).toNat * range / UInt64.size
  | fuel + 1 => do
    let product := (← word).toNat * range
    if product % UInt64.size ≤ zone range then return product / UInt64.size
    else below range fuel

/-- An integer from `low` to `high`, both ends included. -/
def between {σ : Type} [Source σ] (low high : Int) : StateM σ Int := do
  return low + (← below (high - low + 1).toNat attempts)

/-- Whatever the source yields, the number drawn is below the range. -/
theorem below_lt {σ : Type} [Source σ] {range : Nat} (hrange : 0 < range) (fuel : Nat)
    (source : σ) : (below range fuel source).1 < range := by
  have key : ∀ v : UInt64, v.toNat * range / UInt64.size < range := by
    intro v
    rw [Nat.div_lt_iff_lt_mul (by decide), Nat.mul_comm]
    exact Nat.mul_lt_mul_of_pos_left v.toNat_lt_size hrange
  induction fuel generalizing source with
  | zero => exact key _
  | succ fuel ih =>
    simp only [below, bind, StateT.bind, word]
    split
    · exact key _
    · exact ih _

end Complementarity.Random
