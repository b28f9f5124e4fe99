import RenderFold.Data.Value
import RenderFold.Text.Digits

/-!
# Reading Values

Reads the written form of a value: the form that `Value.compact` and
`Value.pretty` produce, with blanks allowed between its parts.

A number written without a point or an exponent is whole if it fits 64 bits,
and a float otherwise. Negative zero has no whole form, so it is a float
however it is written. A float is read quickly rather than to the last bit:
its leading digits, as far as they fit 64 bits, are rounded to a double, the
power of ten is another, and the two are multiplied or divided. Up to fifteen
digits and moderate exponents that is the nearest double, and otherwise it
may be the one beside it. A name that occurs twice in an object keeps its first
position and takes its last value.

## Main definitions

* `Value.read?`: The value a text stands for, if it is well formed.
-/

namespace RenderFold

namespace Value

namespace Reader

/-- Drop the blanks that may stand between two parts. -/
def skipBlanks : List Char → List Char
  | [] => []
  | c :: rest =>
    if c = ' ' || c = '\n' || c = '\r' || c = '\t' then skipBlanks rest else c :: rest

/-- The value of four hexadecimal digits. -/
def hex4? (a b c d : Char) : Option Nat := do
  let a ← Text.hexDigit? a
  let b ← Text.hexDigit? b
  let c ← Text.hexDigit? c
  let d ← Text.hexDigit? d
  return ((a * 16 + b) * 16 + c) * 16 + d

/-- The character an escape letter stands for. -/
def escaped? : Char → Option Char
  | '"' => some '"'
  | '\\' => some '\\'
  | '/' => some '/'
  | 'n' => some '\n'
  | 'r' => some '\r'
  | 't' => some '\t'
  | 'b' => some (Char.ofNat 8)
  | 'f' => some (Char.ofNat 12)
  | _ => none

/-- The rest of a quoted text after its opening quote; `out` holds what was
    read, reversed. A character beyond sixteen bits is escaped as a pair of
    surrogates. -/
def quotedRest (out : List Char) : List Char → Option (String × List Char)
  | '"' :: rest => some (String.ofList out.reverse, rest)
  | '\\' :: 'u' :: a :: b :: c :: d :: '\\' :: 'u' :: a' :: b' :: c' :: d' :: rest => do
    let first ← hex4? a b c d
    if 0xD800 ≤ first && first < 0xDC00 then
      let second ← hex4? a' b' c' d'
      if 0xDC00 ≤ second && second < 0xE000 then
        quotedRest (Char.ofNat (0x10000 + (first - 0xD800) * 0x400 + (second - 0xDC00)) :: out) rest
      else none
    else if 0xDC00 ≤ first && first < 0xE000 then none
    else quotedRest (Char.ofNat first :: out) ('\\' :: 'u' :: a' :: b' :: c' :: d' :: rest)
  | '\\' :: 'u' :: a :: b :: c :: d :: rest => do
    let code ← hex4? a b c d
    if 0xD800 ≤ code && code < 0xE000 then none
    else quotedRest (Char.ofNat code :: out) rest
  | '\\' :: c :: rest => do
    let c ← escaped? c
    quotedRest (c :: out) rest
  | c :: rest => if c.toNat < 32 then none else quotedRest (c :: out) rest
  | [] => none
termination_by text => text.length

/-- A number and as many more digits as 64 bits can hold, with how many
    digits are left over. -/
def digitsOnto (n : Nat) : List Char → Nat × Nat
  | [] => (n, 0)
  | c :: rest =>
    let longer := n * 10 + (c.toNat - '0'.toNat)
    if longer < Nat.pow 2 64 then digitsOnto longer rest else (n, rest.length + 1)

/-- A power of ten as a double. -/
def powerOfTen (n : Nat) : Float := Float.ofScientific 1 false n

/-- `x` times `10 ^ exponent`, unless that is too large for a double. It is
    one product or one quotient with a power of ten as long as the power is a
    double; what is smaller is reached by dividing more than once. -/
def scale (x : Float) (exponent : Int) : Option Float :=
  if exponent.natAbs ≤ 308 then
    if 0 ≤ exponent then
      let y := x * powerOfTen exponent.natAbs
      if y.isInf then none else some y
    else some (x / powerOfTen exponent.natAbs)
  else if x == 0 then some x
  else if 0 ≤ exponent then none
  else scale (x / powerOfTen 308) (exponent + 308)
termination_by exponent.natAbs

/-- The optional exponent of a number. -/
def exponentPart : List Char → Option (Option Int × List Char)
  | c :: rest =>
    if c = 'e' || c = 'E' then
      let (negative, rest) := match rest with
        | '-' :: rest => (true, rest)
        | '+' :: rest => (false, rest)
        | rest => (false, rest)
      match rest.span Char.isDigit with
      | ([], _) => none
      | (digits, rest) =>
        let magnitude : Int := Text.decimalValue digits
        some (some (if negative then -magnitude else magnitude), rest)
    else some (none, c :: rest)
  | [] => some (none, [])

/-- The optional fractional digits of a number. -/
def fractionPart : List Char → Option (Option (List Char) × List Char)
  | '.' :: rest =>
    match rest.span Char.isDigit with
    | ([], _) => none
    | (digits, rest) => some (some digits, rest)
  | rest => some (none, rest)

/-- The float that some digits before the point, some digits after it and an
    exponent stand for. The digits are read as far as they fit 64 bits; any
    others count for their place only. -/
def floating (digits fraction : List Char) (exponent : Int) : Option Float :=
  let (leading, left) := digitsOnto 0 digits
  let (mantissa, dropped) := digitsOnto leading fraction
  scale (Float.ofNat mantissa) (left - (fraction.length - dropped : Nat) + exponent)

/-- A whole number as a value, or as a float if it does not fit 64 bits. -/
def whole (negative : Bool) (digits : List Char) : Option Value :=
  let magnitude := Text.decimalValue digits
  if negative then
    if 0 < magnitude ∧ magnitude ≤ Nat.pow 2 63 then some (.int (-(magnitude : Int)))
    else (floating digits [] 0).map fun x => .float (-x)
  else if magnitude < Nat.pow 2 64 then some (.int magnitude)
  else (floating digits [] 0).map .float

/-- A number. Only a lone zero may start with a zero. -/
def number (text : List Char) : Option (Value × List Char) := do
  let (negative, text) := match text with
    | '-' :: rest => (true, rest)
    | rest => (false, rest)
  let (digits, rest) := text.span Char.isDigit
  if digits.isEmpty || (digits.head? = some '0' && digits.length ≠ 1) then none
  else
    let (fraction, rest) ← fractionPart rest
    let (exponent, rest) ← exponentPart rest
    match fraction, exponent with
    | none, none => return (← whole negative digits, rest)
    | _, _ =>
      let x ← floating digits (fraction.getD []) (exponent.getD 0)
      return (.float (if negative then -x else x), rest)

mutual

/-- A value; `fuel` bounds how many parts it may have. -/
def value : Nat → List Char → Option (Value × List Char)
  | 0, _ => none
  | fuel + 1, text =>
    match skipBlanks text with
    | 'n' :: 'u' :: 'l' :: 'l' :: rest => some (.null, rest)
    | 't' :: 'r' :: 'u' :: 'e' :: rest => some (.bool true, rest)
    | 'f' :: 'a' :: 'l' :: 's' :: 'e' :: rest => some (.bool false, rest)
    | '"' :: rest => (quotedRest [] rest).map fun (text, rest) => (.str text, rest)
    | '[' :: rest =>
      match skipBlanks rest with
      | ']' :: rest => some (.array [], rest)
      | rest => (items fuel rest).map fun (items, rest) => (.array items, rest)
    | '\x7b' :: rest =>
      match skipBlanks rest with
      | '\x7d' :: rest => some (.object [], rest)
      | rest => (fields fuel [] rest).map fun (fields, rest) => (.object fields, rest)
    | rest => number rest

/-- The items of a list up to its closing bracket. -/
def items : Nat → List Char → Option (List Value × List Char)
  | 0, _ => none
  | fuel + 1, text => do
    let (item, rest) ← value fuel text
    match skipBlanks rest with
    | ',' :: rest => do
      let (tail, rest) ← items fuel rest
      return (item :: tail, rest)
    | ']' :: rest => return ([item], rest)
    | _ => none

/-- The fields of an object up to its closing brace. -/
def fields : Nat → Fields Value → List Char → Option (Fields Value × List Char)
  | 0, _, _ => none
  | fuel + 1, out, text =>
    match skipBlanks text with
    | '"' :: rest => do
      let (name, rest) ← quotedRest [] rest
      match skipBlanks rest with
      | ':' :: rest => do
        let (value, rest) ← value fuel rest
        let out := Fields.insert out name value
        match skipBlanks rest with
        | ',' :: rest => fields fuel out rest
        | '\x7d' :: rest => return (out, rest)
        | _ => none
      | _ => none
    | _ => none

end

end Reader

/-- The value that `text` stands for. -/
def read? (text : String) : Option Value :=
  match Reader.value (text.length + 1) text.toList with
  | some (value, rest) => if (Reader.skipBlanks rest).isEmpty then some value else none
  | none => none

end Value

end RenderFold
