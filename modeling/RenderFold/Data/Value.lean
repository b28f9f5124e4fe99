import RenderFold.Data.Fields

/-!
# Values

The dynamic values that component data, props and render functions work
with. Whole numbers and floating-point numbers stay apart because they are
written differently inside a structure, though they compare and add alike.

## Main definitions

* `Value`: A null, a boolean, a number, a text, a list or an object.
* `Value.truthy`: Which values count as true in a condition.
-/

namespace RenderFold

/-- A dynamic value. -/
inductive Value where
  | null
  | bool (b : Bool)
  | int (n : Int)
  | float (x : Float)
  | str (s : String)
  | array (items : List Value)
  | object (fields : List (String × Value))
  deriving Inhabited

namespace Value

/-- The number a value holds, as a double. -/
def number? : Value → Option Float
  | .int n => some (Float.ofInt n)
  | .float x => some x
  | _ => none

/-- The text a value holds. -/
def str? : Value → Option String
  | .str s => some s
  | _ => none

/-- The fields of an object. -/
def object? : Value → Option (Fields Value)
  | .object fields => some fields
  | _ => none

/-- A whole number that is not negative. A float is never an index, whatever
    its value. -/
def index? : Value → Option Nat
  | .int n => if 0 ≤ n then some n.toNat else none
  | _ => none

/-- The field `key` of an object. -/
def field? (value : Value) (key : String) : Option Value :=
  value.object?.bind (Fields.get? · key)

/-- Null, false, zero, not-a-number and the empty text count as false; every
    list and every object counts as true. -/
def truthy : Value → Bool
  | .null => false
  | .bool b => b
  | .int n => n ≠ 0
  | .float x => !(x == 0.0) && !x.isNaN
  | .str s => s ≠ ""
  | .array _ => true
  | .object _ => true

end Value

end RenderFold
