import Complementarity.Decimal.Fixed

/-!
# The shortest decimal text of a number

Every binary64 number is the nearest one to all reals of an interval around it.  Of the decimal
numbers in that interval those with the fewest digits are candidates, and the nearest of them is
written; a tie goes to the larger one.  The text is positional for every magnitude: zeros are
appended or put in front, and there is never an exponent.

The ends of the interval belong to it exactly if the significand is even.  The gap below a power of
two is half as wide as the gap above it, except at the smallest exponent.
-/

namespace Complementarity.Decimal

open Complementarity.Binary

/-- The reals that round to `m · 2 ^ e`, in units of `2 ^ (e - 2)`: the value, the lower end, the
upper end, and whether the ends belong to the interval. -/
structure Neighbourhood where
  value : Nat
  lower : Nat
  upper : Nat
  closed : Bool

/-- The neighbourhood of a significand.  `halved` says that the gap below is half the gap above. -/
def Neighbourhood.around (m : Nat) (halved : Bool) : Neighbourhood where
  value := 4 * m
  lower := 4 * m - if halved then 1 else 2
  upper := 4 * m + 2
  closed := m % 2 = 0

/-- Whether the decimal `digits · 10 ^ place` lies in the neighbourhood, where `num / den` is its
unit `2 ^ (e - 2)`. -/
def Neighbourhood.contains (b : Neighbourhood) (num den digits : Nat) (place : Int) : Bool :=
  let decimal := digits * Nat.pow 10 place.toNat * den
  let scale := num * Nat.pow 10 (-place).toNat
  if b.closed then b.lower * scale ≤ decimal && decimal ≤ b.upper * scale
  else b.lower * scale < decimal && decimal < b.upper * scale

/-- The decimal of the grid `10 ^ place` that stands for the neighbourhood, if one lies in it: the
nearer of the two grid points beside the value, the upper one in a tie. -/
def Neighbourhood.onGrid? (b : Neighbourhood) (num den : Nat) (place : Int) : Option Nat :=
  let top := b.value * num * Nat.pow 10 (-place).toNat
  let step := den * Nat.pow 10 place.toNat
  let below := top / step
  let above := below + 1
  let hasBelow := b.contains num den below place
  let hasAbove := b.contains num den above place
  if hasAbove && (!hasBelow || step ≤ 2 * (top % step)) then some above
  else if hasBelow then some below
  else none

/-- The decimal with the fewest digits: the grids from coarse to fine, `count` of them, starting
at `10 ^ place`. -/
def Neighbourhood.coarsest (b : Neighbourhood) (num den : Nat) : Nat → Int → Nat × Int
  | 0, place => ((b.onGrid? num den place).getD 0, place)
  | count + 1, place =>
    match b.onGrid? num den place with
    | some digits => (digits, place)
    | none => b.coarsest num den count (place - 1)

/-- The shortest digits of `m · 2 ^ e` in a format, and the place of the last of them.  Seventeen
digits are enough for every binary64 number. -/
def shortestDigits (F : Format) (m : Nat) (e : Int) : Nat × Int :=
  let b := Neighbourhood.around m (m = F.binade && F.minExponent < e)
  let (num, den) := fraction 1 (e - 2)
  b.coarsest num den 17 (decimalExponent (b.value * num) den)

/-- `digits · 10 ^ place` without an exponent. -/
def positional (digits : Nat) (place : Int) : String :=
  if 0 ≤ place then toString (digits * Nat.pow 10 place.toNat)
  else setPoint (-place).toNat digits

/-- The shortest text that reads back as the same number. -/
def shortest (x : Float) : String :=
  match datumOfDouble x with
  | .nan => "NaN"
  | .infinite negative => minus negative ++ "inf"
  | .finite negative m e =>
    minus negative ++ (if m = 0 then "0" else
      let (digits, place) := shortestDigits binary64 m e
      positional digits place)

end Complementarity.Decimal
