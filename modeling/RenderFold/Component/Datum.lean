import RenderFold.Component.Basic
import RenderFold.Markup.Tag

/-!
# Data at Run Time

What an expression of a render function evaluates to: a plain value, a view,
a function, or a list that holds at least one of these. Views and functions
are told apart by a serial number that each gets when it is made.

## Main definitions

* `Datum`: What an expression evaluates to.
* `Datum.text`, `Datum.display`: Its text in concatenation and in display.
* `Datum.views`: The children it stands for.
* `Datum.strictEq`: When two of them are the same.
* `Datum.property`, `Datum.position`: Parts of a datum.
-/

namespace RenderFold

/-- What an expression evaluates to. A function keeps the variables it was
    made among, innermost first. -/
inductive Datum where
  | value (value : Value)
  | view (serial : Nat) (view : View)
  | list (items : List Datum)
  | closure (serial : Nat) (params : List String) (body : Script.Tree)
      (env : List (List (String × Datum)))
  deriving Inhabited

namespace Datum

/-- The null value. -/
def null : Datum := .value .null

/-- A boolean. -/
def bool (b : Bool) : Datum := .value (.bool b)

/-- A text. -/
def str (text : String) : Datum := .value (.str text)

/-- A natural number. -/
def nat (n : Nat) : Datum := .value (.int n)

/-- Whether it counts as true in a condition. -/
def truthy : Datum → Bool
  | .value v => v.truthy
  | _ => true

mutual

/-- The plain value it amounts to; views and functions leave nothing. -/
def toValue : Datum → Value
  | .value v => v
  | .list items => .array (toValues items)
  | .view .. => .null
  | .closure .. => .null
termination_by structural datum => datum

/-- The plain values of the items of a list. -/
def toValues : List Datum → List Value
  | [] => []
  | item :: rest => toValue item :: toValues rest
termination_by structural items => items

end

mutual

/-- What concatenation makes of it. -/
def text : Datum → String
  | .value v => v.text
  | .list items => ",".intercalate (itemTexts items)
  | .view .. => "[object Object]"
  | .closure .. => "[function]"
termination_by structural datum => datum

/-- The texts of the items of a list. -/
def itemTexts : List Datum → List String
  | [] => []
  | item :: rest => text item :: itemTexts rest
termination_by structural items => items

end

/-- What display makes of it. -/
def display : Datum → String
  | .value v => v.display
  | datum => datum.toValue.compact

/-- A child as it stands under an element. A text under an element whose text
    is raw becomes raw. -/
def asChild (raw : Bool) : View → View
  | .text content isRaw => .text content (isRaw || raw)
  | other => other

mutual

/-- The children a plain value stands for: lists are flattened, null and
    booleans leave nothing, and anything else becomes a text. -/
def valueViews (raw : Bool) : Value → List View
  | .array items => itemValueViews raw items
  | .null => []
  | .bool _ => []
  | other => [.text other.text raw]
termination_by structural value => value

/-- The children the items of a list stand for. -/
def itemValueViews (raw : Bool) : List Value → List View
  | [] => []
  | item :: rest => valueViews raw item ++ itemValueViews raw rest
termination_by structural items => items

end

mutual

/-- The children it stands for. -/
def views (raw : Bool) : Datum → List View
  | .value v => valueViews raw v
  | .view _ child => [asChild raw child]
  | .list items => itemViews raw items
  | .closure .. => []
termination_by structural datum => datum

/-- The children the items of a list stand for. -/
def itemViews (raw : Bool) : List Datum → List View
  | [] => []
  | item :: rest => views raw item ++ itemViews raw rest
termination_by structural items => items

end

/-- Whether two plain values are the same. Structures are always new, so they
    are never the same as anything. -/
def valueStrictEq : Value → Value → Bool
  | .null, .null => true
  | .bool a, .bool b => a == b
  | .str a, .str b => a == b
  | a, b =>
    match a.number?, b.number? with
    | some x, some y => x == y
    | _, _ => false

/-- Whether two data are the same. -/
def strictEq : Datum → Datum → Bool
  | .value a, .value b => valueStrictEq a b
  | .view a _, .view b _ => a == b
  | .closure a .., .closure b .. => a == b
  | _, _ => false

/-- A list of data. One that holds only plain values is itself a plain
    value. -/
def ofItems (items : List Datum) : Datum :=
  let plain := items.all fun item => match item with
    | .value _ => true
    | _ => false
  if plain then .value (.array (toValues items)) else .list items

/-- A property by name. -/
def property (name : String) : Datum → Except RenderError Datum
  | .value .null => .error (.typeError (.nullProperty name))
  | .value (.object fields) => .ok (.value ((Fields.get? fields name).getD .null))
  | .value (.array items) => .ok (if name = "length" then nat items.length else null)
  | .value (.str text) => .ok (if name = "length" then nat text.length else null)
  | .list items => .ok (if name = "length" then nat items.length else null)
  | _ => .ok null

/-- The position that a number names: its whole part, unless it is negative. -/
def index? : Datum → Option Nat
  | .value v =>
    match v.number? with
    | some x => if 0 ≤ x then some x.toUInt64.toNat else none
    | none => none
  | _ => none

/-- The part at a position, or under the name that the position spells. -/
def part (datum position : Datum) : Except RenderError Datum :=
  match datum with
  | .value .null => .error (.typeError (.nullProperty position.text))
  | .value (.array items) => .ok (.value ((position.index?.bind (items[·]?)).getD .null))
  | .list items => .ok ((position.index?.bind (items[·]?)).getD null)
  | .value (.object fields) =>
    .ok (.value ((Fields.get? fields position.text).getD .null))
  | _ => .ok null

end Datum

end RenderFold
