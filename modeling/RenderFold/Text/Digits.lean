/-!
# Digits

Reading and writing natural numbers digit by digit.

## Main definitions

* `hexDigit?`: The value of a hexadecimal digit.
* `decimalValue`: The number a run of decimal digits stands for.
* `hexPadded`: A number in hexadecimal digits, to a fixed width.
-/

namespace RenderFold

namespace Text

/-- The value of a hexadecimal digit of either case. -/
def hexDigit? (c : Char) : Option Nat :=
  if '0' ≤ c && c ≤ '9' then some (c.toNat - '0'.toNat)
  else if 'a' ≤ c && c ≤ 'f' then some (c.toNat - 'a'.toNat + 10)
  else if 'A' ≤ c && c ≤ 'F' then some (c.toNat - 'A'.toNat + 10)
  else none

/-- The natural number that a run of decimal digits stands for. -/
def decimalValue (digits : List Char) : Nat :=
  digits.foldl (fun n c => n * 10 + (c.toNat - '0'.toNat)) 0

/-- A number in lower-case hexadecimal digits, with zeros in front up to
    `width` of them. -/
def hexPadded (width n : Nat) : String :=
  let digits := Nat.toDigits 16 n
  String.ofList (List.replicate (width - digits.length) '0' ++ digits)

end Text

end RenderFold
