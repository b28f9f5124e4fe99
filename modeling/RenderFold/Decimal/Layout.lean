import RenderFold.Decimal.Shortest

/-!
# Layouts of Decimal Numbers

How the shortest digits of a double are set out. Every choice a format makes
is a field of `Layout`; the two formats in use are `plain`, which never
writes an exponent, and `structured`, which is how a number looks inside a
list or an object.

## Main definitions

* `Layout`: The choices of a format.
* `Layout.write`: A double in a format.
* `plain`, `structured`: The two formats.
-/

namespace RenderFold

namespace Decimal

/-- The choices of a number format. `positional` says for which places of the
    first digit no exponent is written, and `whole` is what follows a number
    without fractional digits. -/
structure Layout where
  tie : Tie
  positional : Int → Bool
  whole : String
  notANumber : String
  infinity : String

/-- A run of `n` zeros. -/
def zeros (n : Nat) : String := String.ofList (List.replicate n '0')

namespace Digits

/-- The place of the first digit. -/
def leading (d : Digits) : Int := d.exponent + (Nat.repr d.digits).length - 1

/-- The digits with a decimal point in its place and no exponent. -/
def positional (whole : String) (d : Digits) : String :=
  let text := Nat.repr d.digits
  let fraction := (-d.exponent).toNat
  if 0 ≤ d.exponent then text ++ zeros d.exponent.toNat ++ whole
  else if fraction < text.length then
    let (left, right) := text.toList.splitAt (text.length - fraction)
    String.ofList left ++ "." ++ String.ofList right
  else "0." ++ zeros (fraction - text.length) ++ text

/-- One digit before the point, and the place of that digit as an exponent
    that always has a sign. -/
def scientific (d : Digits) : String :=
  let mantissa := match (Nat.repr d.digits).toList with
    | [] => ""
    | [digit] => String.ofList [digit]
    | digit :: rest => String.ofList (digit :: '.' :: rest)
  let exponent := d.leading
  mantissa ++ "e" ++ (if exponent < 0 then "-" else "+") ++ Nat.repr exponent.natAbs

end Digits

/-- Write a double in a format. The sign is written for negative zero too. -/
def Layout.write (layout : Layout) (x : Float) : String :=
  match Exact.ofFloat? x with
  | none =>
    if x.isNaN then layout.notANumber
    else if x < 0 then "-" ++ layout.infinity
    else layout.infinity
  | some exact =>
    let digits := shortest layout.tie exact
    let text :=
      if layout.positional digits.leading then digits.positional layout.whole
      else digits.scientific
    if exact.negative then "-" ++ text else text

/-- Shortest digits without an exponent, however long that gets; a whole
    number has no point, and of two equally near digits the upper is taken. -/
def plain : Layout where
  tie := .up
  positional := fun _ => true
  whole := ""
  notANumber := "NaN"
  infinity := "inf"

/-- A number inside a structure always shows that it is not an integer, by a
    fractional digit or by an exponent, and takes an exponent when the first
    digit is beyond the fifth place after the point or the sixteenth before
    it. -/
def structured : Layout where
  tie := .even
  positional := fun place => -5 ≤ place ∧ place ≤ 15
  whole := ".0"
  notANumber := "null"
  infinity := "null"

end Decimal

end RenderFold
