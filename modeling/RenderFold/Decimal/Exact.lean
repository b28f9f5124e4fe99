/-!
# Exact Doubles

A finite double is a whole number times a power of two. Taking it apart that
way puts every question about its decimal form (is it whole, is it below a
bound, which digits stand for it) into exact arithmetic on natural numbers.

## Main definitions

* `Exact`: Sign, mantissa and exponent of a finite double.
* `Exact.ofFloat?`: The parts of a double, or nothing for infinities and
  not-a-number.
-/

namespace RenderFold

namespace Decimal

/-- A finite double in parts. Its value is `mantissa * 2 ^ exponent`, negated
    when `negative` holds. -/
structure Exact where
  negative : Bool
  mantissa : Nat
  exponent : Int
  deriving DecidableEq

namespace Exact

/-- Take a double apart: one sign bit, eleven exponent bits, fifty-two
    fraction bits. A zero exponent field marks a number without the implicit
    leading bit, and a full one marks a number that is not finite. -/
def ofFloat? (x : Float) : Option Exact :=
  let bits : Nat := x.toBits.toNat
  let fraction : Nat := bits % Nat.pow 2 52
  let field : Nat := bits / Nat.pow 2 52 % Nat.pow 2 11
  let negative := bits / Nat.pow 2 63 == 1
  if field = 2047 then none
  else if field = 0 then some ⟨negative, fraction, -1074⟩
  else some ⟨negative, fraction + Nat.pow 2 52, (field : Int) - 1075⟩

/-- The magnitude is `numerator / denominator`. -/
def numerator (x : Exact) : Nat := x.mantissa * Nat.pow 2 x.exponent.toNat

/-- The magnitude is `numerator / denominator`. -/
def denominator (x : Exact) : Nat := Nat.pow 2 (-x.exponent).toNat

/-- Whether the value has no fractional part. -/
def isWhole (x : Exact) : Bool := x.numerator % x.denominator == 0

/-- Whether the magnitude is below `bound`. -/
def isBelow (x : Exact) (bound : Nat) : Bool := x.numerator < bound * x.denominator

/-- The value without its fractional part. -/
def truncate (x : Exact) : Int :=
  let magnitude : Int := (x.numerator / x.denominator : Nat)
  if x.negative then -magnitude else magnitude

end Exact

end Decimal

end RenderFold
