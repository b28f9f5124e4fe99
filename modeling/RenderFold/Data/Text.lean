import RenderFold.Data.Value
import RenderFold.Decimal.Layout
import RenderFold.Text.Digits

/-!
# The Text of a Value

A value is written in three ways. `Value.text` is what concatenation makes
of it, `Value.display` is what a template shows, and `Value.compact` and
`Value.pretty` write its structure out in full, on one line or indented.

## Main definitions

* `numberText`: A number as concatenation sees it.
* `Value.text`: Lists join their items with commas and objects lose their
  fields.
* `Value.display`: Null shows nothing and structures are written out.
* `Value.compact`, `Value.pretty`: The full structure.
-/

namespace RenderFold

/-- The signed 64-bit whole number nearest to `n`. -/
def clamp64 (n : Int) : Int := max (-0x8000000000000000) (min 0x7fffffffffffffff n)

/-- A number as concatenation sees it. A whole number below `10 ^ 21` is
    written as a signed 64-bit whole number, the nearest one there is when it
    does not fit; any other number is written by its shortest digits. -/
def numberText (x : Float) : String :=
  match Decimal.Exact.ofFloat? x with
  | none => if x.isNaN then "NaN" else if x > 0 then "Infinity" else "-Infinity"
  | some exact =>
    if exact.isWhole && exact.isBelow (Nat.pow 10 21) then toString (clamp64 exact.truncate)
    else Decimal.plain.write x

/-- The number that arithmetic and literals produce: whole below `9 * 10 ^ 15`
    in magnitude, a float otherwise, and null if it is not finite. -/
def Value.ofFloat (x : Float) : Value :=
  match Decimal.Exact.ofFloat? x with
  | none => .null
  | some exact =>
    if exact.isWhole && exact.isBelow (9 * Nat.pow 10 15) then .int exact.truncate else .float x

namespace Value

/-- A character inside a quoted text. Quotes, backslashes and control
    characters are escaped, the common ones by a letter. -/
def quotedChar (c : Char) : String :=
  if c = '"' then "\\\""
  else if c = '\\' then "\\\\"
  else if c = '\n' then "\\n"
  else if c = '\r' then "\\r"
  else if c = '\t' then "\\t"
  else if c.toNat = 8 then "\\b"
  else if c.toNat = 12 then "\\f"
  else if c.toNat < 32 then "\\u" ++ Text.hexPadded 4 c.toNat
  else String.singleton c

/-- A text in double quotes. -/
def quoted (text : String) : String :=
  text.foldl (fun out c => out ++ quotedChar c) "\"" ++ "\""

mutual

/-- What concatenation makes of a value. Inside a list null is written as
    nothing. -/
def text : Value → String
  | .null => "null"
  | .bool b => if b then "true" else "false"
  | .int n => numberText (Float.ofInt n)
  | .float x => numberText x
  | .str s => s
  | .array items => ",".intercalate (itemTexts items)
  | .object _ => "[object Object]"
termination_by structural value => value

/-- The texts of the items of a list. -/
def itemTexts : List Value → List String
  | [] => []
  | .null :: rest => "" :: itemTexts rest
  | item :: rest => text item :: itemTexts rest
termination_by structural items => items

end

/-- A number inside a structure. -/
def scalar : Value → String
  | .null => "null"
  | .bool b => if b then "true" else "false"
  | .int n => toString n
  | .float x => Decimal.structured.write x
  | .str s => quoted s
  | _ => ""

mutual

/-- The structure of a value on one line. -/
def compact : Value → String
  | .array items => "[" ++ compactItems items ++ "]"
  | .object fields => "\x7b" ++ compactFields fields ++ "\x7d"
  | value => scalar value
termination_by structural value => value

/-- The items of a list, separated by commas. -/
def compactItems : List Value → String
  | [] => ""
  | [item] => compact item
  | item :: rest => compact item ++ "," ++ compactItems rest
termination_by structural items => items

/-- The fields of an object, separated by commas. -/
def compactFields : List (String × Value) → String
  | [] => ""
  | [(name, value)] => quoted name ++ ":" ++ compact value
  | (name, value) :: rest => quoted name ++ ":" ++ compact value ++ "," ++ compactFields rest
termination_by structural fields => fields

end

/-- A new line, indented by two spaces a level. -/
def indented (level : Nat) : String :=
  "\n" ++ String.ofList (List.replicate (2 * level) ' ')

mutual

/-- The structure of a value with an item or field a line. -/
def prettyAt (level : Nat) : Value → String
  | .array [] => "[]"
  | .array (item :: rest) =>
    "[" ++ prettyItems (level + 1) (item :: rest) ++ indented level ++ "]"
  | .object [] => "\x7b\x7d"
  | .object (field :: rest) =>
    "\x7b" ++ prettyFields (level + 1) (field :: rest) ++ indented level ++ "\x7d"
  | value => scalar value
termination_by structural value => value

/-- The items of a list, a line each. -/
def prettyItems (level : Nat) : List Value → String
  | [] => ""
  | [item] => indented level ++ prettyAt level item
  | item :: rest => indented level ++ prettyAt level item ++ "," ++ prettyItems level rest
termination_by structural items => items

/-- The fields of an object, a line each. -/
def prettyFields (level : Nat) : List (String × Value) → String
  | [] => ""
  | [(name, value)] => indented level ++ quoted name ++ ": " ++ prettyAt level value
  | (name, value) :: rest =>
    indented level ++ quoted name ++ ": " ++ prettyAt level value ++ ","
      ++ prettyFields level rest
termination_by structural fields => fields

end

/-- The structure of a value with an item or field a line. -/
def pretty (value : Value) : String := prettyAt 0 value

/-- What a template shows for a value: nothing for null, the structure for
    lists and objects, and the text of anything else. -/
def display : Value → String
  | .null => ""
  | .array items => pretty (.array items)
  | .object fields => pretty (.object fields)
  | value => text value

end Value

end RenderFold
