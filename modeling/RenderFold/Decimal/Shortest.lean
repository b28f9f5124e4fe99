import RenderFold.Decimal.Exact

/-!
# Shortest Digits

The fewest decimal digits that read back as a given double.

Around a double lies the interval of reals that round to it; its ends belong
to it exactly when the mantissa is even. Written with the last digit at the
place `10 ^ k`, a number is a point of the grid of multiples of `10 ^ k`, so
the shortest form is a point of the coarsest grid that meets the interval.
If any point of a grid lies in the interval, then so does one of the two
neighbours of the value on that grid, so those two are all that is tested.

## Main definitions

* `Digits`: Some digits and the place of the last one.
* `Tie`: Which of two equally near neighbours is taken.
* `shortest`: The shortest digits of a double, nearest first.
-/

namespace RenderFold

namespace Decimal

/-- The number `digits * 10 ^ exponent`. -/
structure Digits where
  digits : Nat
  exponent : Int
  deriving DecidableEq

/-- Which of two neighbours is taken when both are equally near. -/
inductive Tie where
  | up
  | even
  deriving DecidableEq

/-- A double on the grid of multiples of `10 ^ place`, with everything scaled
    to whole numbers: the grid has width `unit`. -/
structure Grid where
  unit : Nat
  low : Nat
  value : Nat
  high : Nat
  closed : Bool

namespace Grid

/-- The double `x` and the ends of its rounding interval against the grid of
    multiples of `10 ^ place`. Below the value the spacing is halved when the
    mantissa is the least one of its exponent. -/
def of (x : Exact) (place : Int) : Grid :=
  let scale := Nat.pow 2 (x.exponent - 2).toNat * Nat.pow 10 (-place).toNat
  let step := if x.mantissa = Nat.pow 2 52 ∧ x.exponent > -1074 then 1 else 2
  { unit := Nat.pow 10 place.toNat * Nat.pow 2 (2 - x.exponent).toNat
    low := (4 * x.mantissa - step) * scale
    value := 4 * x.mantissa * scale
    high := (4 * x.mantissa + 2) * scale
    closed := x.mantissa % 2 == 0 }

/-- Whether the grid's point number `n` rounds to the double. -/
def holds (g : Grid) (n : Nat) : Bool :=
  if g.closed then g.low ≤ n * g.unit && n * g.unit ≤ g.high
  else g.low < n * g.unit && n * g.unit < g.high

/-- The nearer of the points `n` and `n + 1`, between which the value lies. -/
def nearer (g : Grid) (tie : Tie) (n : Nat) : Nat :=
  match compare (g.value - n * g.unit) ((n + 1) * g.unit - g.value), tie with
  | .lt, _ => n
  | .gt, _ => n + 1
  | .eq, .up => n + 1
  | .eq, .even => n + n % 2

/-- The point of the grid that stands for the double, if one does. -/
def point? (g : Grid) (tie : Tie) : Option Nat :=
  let n := g.value / g.unit
  match 0 < n && g.holds n, g.holds (n + 1) with
  | true, true => some (g.nearer tie n)
  | true, false => some n
  | false, true => some (n + 1)
  | false, false => none

end Grid

/-- Search from the place `place` towards finer grids. -/
def shortestFrom (tie : Tie) (x : Exact) : Nat → Int → Digits
  | 0, place => ⟨(Grid.of x place).value / (Grid.of x place).unit, place⟩
  | fuel + 1, place =>
    match (Grid.of x place).point? tie with
    | some n => ⟨n, place⟩
    | none => shortestFrom tie x fuel (place - 1)

/-- The shortest digits that read back as `x`. The search starts at a power
    of ten above the value. A double has at most 1074 digits after the point,
    so it ends at the latest where the grid meets the value itself. -/
def shortest (tie : Tie) (x : Exact) : Digits :=
  if x.mantissa = 0 then ⟨0, 0⟩
  else
    let whole := x.numerator / x.denominator
    let places := if whole = 0 then 0 else (Nat.toDigits 10 whole).length
    shortestFrom tie x (places + 1074) places

end Decimal

end RenderFold
