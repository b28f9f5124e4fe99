import RenderFold.Script.Arena
import RenderFold.Script.Helper

/-!
# Shapes of Calls

What can be told about an expression by looking at it. A call is recognised
by the name of the helper it calls, and where a node's children are written
out as a list, that list is found by its place among the arguments.

None of this runs anything: a name may be shadowed and a data argument may
turn out to be null, so what is read off here is a guess at what running the
function does, to be checked against what it did.

## Main definitions

* `Arena.helper?`, `Arena.arguments`: The helper and arguments of a call.
* `Arena.childArray?`: The list of children of a node construction.
* `Arena.singleReturn?`: The expression a function returns.
* `Arena.isNodeCall`, `Arena.isTextCall`: Calls that construct a node, and
  those that construct one from a single text.
-/

namespace RenderFold

namespace Script

namespace Arena

variable (arena : Arena)

/-- The helper that a call calls. -/
def helper? (id : Id) : Option Helper :=
  match arena.get id with
  | .call callee _ =>
    match arena.get callee with
    | .ident name => Helper.ofName? name
    | _ => none
  | _ => none

/-- The arguments of a call; nothing else has any. -/
def arguments (id : Id) : List Id :=
  match arena.get id with
  | .call _ arguments => arguments
  | _ => []

/-- The text of a literal. -/
def literal? (id : Id) : Option String :=
  match arena.get id with
  | .str text => some text
  | _ => none

/-- The elements of a list. -/
def elements? (id : Id) : Option (List Id) :=
  match arena.get id with
  | .array elements => some elements
  | _ => none

/-- Whether the expression is a hole. -/
def isHole (id : Id) : Bool :=
  match arena.get id with
  | .hole => true
  | _ => false

/-- Whether the expression calls a helper that constructs a node. -/
def isNodeCall (id : Id) : Bool := (arena.helper? id).any Helper.constructsNode

/-- Whether the expression constructs markup from a single text. -/
def isTextCall (id : Id) : Bool :=
  arena.helper? id = some .markup && (arena.arguments id).length == 1

/-- The single text that markup is constructed from. -/
def textArgument? (id : Id) : Option Id :=
  if arena.isTextCall id then (arena.arguments id).head? else none

/-- The single literal that markup is constructed from. -/
def textLiteral? (id : Id) : Option String := (arena.textArgument? id).bind arena.literal?

/-- Where the list of children can stand among the arguments of a helper. -/
def childPlaces : Helper → List Nat
  | .element => [1, 2]
  | .markup => [2]
  | _ => []

/-- The list literal that holds the children of a node construction. Children
    that are produced in any other way are not found. -/
def childArray? (id : Id) : Option Id := do
  let helper ← arena.helper? id
  ((childPlaces helper).filterMap fun place => (arena.arguments id)[place]?).find? fun argument =>
    (arena.elements? argument).isSome

/-- The one expression that a function's statements return. Declarations and
    plain expressions may stand beside the return; a branch, a return without
    an expression or a second return leave no single expression. -/
def onlyReturn? (found : Option Id) : List Id → Option Id
  | [] => found
  | statement :: rest =>
    match arena.get statement with
    | .ret (some argument) => if found.isSome then none else onlyReturn? (some argument) rest
    | .ret none => none
    | .branch .. => none
    | _ => onlyReturn? found rest

/-- The expression that a function returns on every path, if there is only
    one and it constructs a node. -/
def singleReturn? (function : Id) : Option Id :=
  match arena.get function with
  | .function _ _ body => (arena.onlyReturn? none body).filter arena.isNodeCall
  | _ => none

end Arena

end Script

end RenderFold
