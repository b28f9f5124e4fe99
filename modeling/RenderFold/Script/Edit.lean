import RenderFold.Data.Fields
import RenderFold.Script.Shape

/-!
# Editing in Place

The edits that folding makes to a render function. An expression that is
rewritten keeps its index, so whatever refers to it now refers to the new
form; the parts it is made of are new nodes or nodes that were there before.

## Main definitions

* `Arena.pushCall`, `Arena.pushText`: New calls.
* `Arena.becomeText`, `Arena.becomeLiteral`, `Arena.becomeFragment`:
  Rewriting an expression into markup.
* `Arena.setElements`, `Arena.setProperty`: Rewriting a part of a call.
* `Arena.join`: The concatenation of two expressions, with literals merged.
-/

namespace RenderFold

namespace Script

namespace Arena

/-- Add a call of a helper; the name of the helper is added first. -/
def pushCall (arena : Arena) (helper : Helper) (arguments : List Id) : Id × Arena :=
  let (callee, arena) := arena.push (.ident helper.name)
  arena.push (.call callee arguments)

/-- Add the construction of markup from one text. -/
def pushText (arena : Arena) (argument : Id) : Id × Arena := arena.pushCall .markup [argument]

/-- Add the construction of markup from a literal. -/
def pushLiteral (arena : Arena) (text : String) : Id × Arena :=
  let (argument, arena) := arena.push (.str text)
  arena.pushText argument

/-- Add a function without parameters that returns markup from a literal. -/
def pushLiteralFunction (arena : Arena) (text : String) : Id × Arena :=
  let (node, arena) := arena.pushLiteral text
  let (statement, arena) := arena.push (.ret (some node))
  arena.push (.function (some "render") [] [statement])

/-- Rewrite an expression into a call of a helper. -/
def becomeCall (arena : Arena) (id : Id) (helper : Helper) (arguments : List Id) : Arena :=
  let (callee, arena) := arena.push (.ident helper.name)
  arena.replace id (.call callee arguments)

/-- Rewrite an expression into the construction of markup from one text. -/
def becomeText (arena : Arena) (id argument : Id) : Arena :=
  arena.becomeCall id .markup [argument]

/-- Rewrite an expression into the construction of markup from a literal. -/
def becomeLiteral (arena : Arena) (id : Id) (text : String) : Arena :=
  let (argument, arena) := arena.push (.str text)
  arena.becomeText id argument

/-- Rewrite an expression into the construction of markup around children. -/
def becomeFragment (arena : Arena) (id : Id) (opening closing : String) (children : List Id) :
    Arena :=
  let (opening, arena) := arena.push (.str opening)
  let (closing, arena) := arena.push (.str closing)
  let (children, arena) := arena.push (.array children)
  arena.becomeCall id .markup [opening, closing, children]

/-- Give a list other elements. Nothing happens to an expression that is not
    a list; the answer says whether it was one. -/
def setElements (arena : Arena) (id : Id) (elements : List Id) : Bool × Arena :=
  match arena.get id with
  | .array _ => (true, arena.replace id (.array elements))
  | _ => (false, arena)

/-- Give a call a data object with one property, as its second argument. -/
def insertData (arena : Arena) (call : Id) (key : String) (value : Id) : Bool × Arena :=
  let (data, arena) := arena.push (.object [(key, value)])
  match arena.get call with
  | .call callee (tag :: rest) => (true, arena.replace call (.call callee (tag :: data :: rest)))
  | .call _ [] => (false, arena)
  | _ => (true, arena)

/-- Set a property of the data of an element. Data is inserted where there is
    none, which is where the second argument is missing or is the list of
    children. An argument of any other form may turn out to be data or
    children, so such a call is left alone and the answer is no. -/
def setProperty (arena : Arena) (call : Id) (key : String) (value : Id) : Bool × Arena :=
  if arena.helper? call = some .element then
    match (arena.arguments call)[1]? with
    | none => arena.insertData call key value
    | some argument =>
      match arena.get argument with
      -- Data that is written out is changed where it stands.
      | .object properties =>
        (true, arena.replace argument (.object (Fields.insert properties key value)))
      | .array _ => arena.insertData call key value
      | _ => (false, arena)
  else (false, arena)

/-- The literal at one end of a chain of sums: `first` picks the left one.
    The search goes down at most `depth` operators. -/
def endLiteral? (arena : Arena) (first : Bool) : Nat → Id → Option Id
  | 0, _ => none
  | depth + 1, id =>
    match arena.get id with
    | .binary .add left right => arena.endLiteral? first depth (if first then left else right)
    | .str _ => some id
    | _ => none

/-- Change the text of a literal. -/
def mapLiteral (arena : Arena) (id : Id) (f : String → String) : Arena :=
  match arena.get id with
  | .str text => arena.replace id (.str (f text))
  | _ => arena

/-- The concatenation of two expressions. Two literals become one, and a
    literal beside a chain of sums is taken into the literal at that end of
    the chain; anything else becomes a sum. -/
def join (arena : Arena) (left right : Id) : Id × Arena :=
  match arena.literal? left, arena.literal? right with
  | some a, some b => arena.push (.str (a ++ b))
  | some a, none =>
    -- The text goes before the right side, so into the literal at its left end.
    match arena.endLiteral? true arena.size right with
    | some target => (right, arena.mapLiteral target (a ++ ·))
    | none => arena.push (.binary .add left right)
  | none, some b =>
    match arena.endLiteral? false arena.size left with
    | some target => (left, arena.mapLiteral target (· ++ b))
    | none => arena.push (.binary .add left right)
  | none, none => arena.push (.binary .add left right)

end Arena

end Script

end RenderFold
