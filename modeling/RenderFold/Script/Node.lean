/-!
# Nodes

The shapes that the parts of a render function take. A shape is generic in
what stands for its parts: an index into an arena when a function is being
edited in place, and a whole tree when it is printed or run. Everything that
only depends on how a shape holds its parts is stated here once.

## Main definitions

* `BinaryOp`, `Binding`: Operators and declaration keywords.
* `Node`: A shape with parts of some type.
* `Node.children`: The parts in source order.
* `Node.map`, `Node.mapM`: The same shape with other parts.

## Theorems

* `Node.children_map`: Mapping a shape maps its parts.
* `Node.map_congr`: Mapping a shape depends on nothing but its parts.
* `Node.map_map`, `Node.map_id`: Mapping composes.
-/

namespace RenderFold

namespace Script

/-- Binary operators. -/
inductive BinaryOp where
  | add
  | strictEq
  | strictNotEq
  | and
  | or
  deriving DecidableEq, Inhabited

namespace BinaryOp

/-- The mark of the operator. -/
def mark : BinaryOp → String
  | add => "+"
  | strictEq => "==="
  | strictNotEq => "!=="
  | and => "&&"
  | or => "||"

/-- How tightly the operator binds. -/
def precedence : BinaryOp → Nat
  | or => 3
  | and => 4
  | strictEq | strictNotEq => 5
  | add => 6

end BinaryOp

/-- The keyword of a declaration. -/
inductive Binding where
  | const
  | let
  deriving DecidableEq, Inhabited

/-- The spelling of a declaration keyword. -/
def Binding.keyword : Binding → String
  | .const => "const"
  | .let => "let"

/-- A part of a render function, with `α` for the parts it is made of. The
    first five are statements. A number is given by the bits of its double, so
    that every not-a-number stays the one it is. A `hole` stands for an
    expression that could not be located; no source text has one. -/
inductive Node (α : Type) where
  | function (name : Option String) (params : List String) (body : List α)
  | ret (argument : Option α)
  | declare (binding : Binding) (name : String) (init : α)
  | branch (test : α) (consequent : List α) (alternate : Option (List α))
  | discard (expression : α)
  | str (text : String)
  | num (bits : UInt64)
  | bool (value : Bool)
  | null
  | ident (name : String)
  | member (target : α) (property : String)
  | index (target : α) (position : α)
  | call (callee : α) (arguments : List α)
  | array (elements : List α)
  | object (properties : List (String × α))
  | not (argument : α)
  | binary (op : BinaryOp) (left : α) (right : α)
  | conditional (test : α) (consequent : α) (alternate : α)
  | arrow (params : List String) (body : α)
  | hole
  deriving DecidableEq, Inhabited

namespace Node

variable {α β γ : Type}

/-- Whether the node is a statement. -/
def isStatement : Node α → Bool
  | function .. | ret _ | declare .. | branch .. | discard _ => true
  | _ => false

/-- The parts in source order. -/
def children : Node α → List α
  | function _ _ body => body
  | ret argument => argument.toList
  | declare _ _ init => [init]
  | branch test consequent alternate => test :: (consequent ++ alternate.getD [])
  | discard expression => [expression]
  | member target _ => [target]
  | index target position => [target, position]
  | call callee arguments => callee :: arguments
  | array elements => elements
  | object properties => properties.map (·.2)
  | not argument => [argument]
  | binary _ left right => [left, right]
  | conditional test consequent alternate => [test, consequent, alternate]
  | arrow _ body => [body]
  | str _ | num _ | bool _ | null | ident _ | hole => []

/-- The same shape with every part passed through `f`. -/
def map (f : α → β) : Node α → Node β
  | function name params body => function name params (body.map f)
  | ret argument => ret (argument.map f)
  | declare binding name init => declare binding name (f init)
  | branch test consequent alternate =>
    branch (f test) (consequent.map f) (alternate.map (·.map f))
  | discard expression => discard (f expression)
  | str text => str text
  | num bits => num bits
  | bool value => bool value
  | null => null
  | ident name => ident name
  | member target property => member (f target) property
  | index target position => index (f target) (f position)
  | call callee arguments => call (f callee) (arguments.map f)
  | array elements => array (elements.map f)
  | object properties => object (properties.map fun property => (property.1, f property.2))
  | not argument => not (f argument)
  | binary op left right => binary op (f left) (f right)
  | conditional test consequent alternate =>
    conditional (f test) (f consequent) (f alternate)
  | arrow params body => arrow params (f body)
  | hole => hole

/-- The same shape with every part replaced by the result of a computation.
    The computations run in source order. -/
def mapM {m : Type → Type} [Monad m] {α β : Type} (f : α → m β) : Node α → m (Node β)
  | function name params body => return function name params (← body.mapM f)
  | ret none => return ret none
  | ret (some argument) => return ret (some (← f argument))
  | declare binding name init => return declare binding name (← f init)
  | branch test consequent none => return branch (← f test) (← consequent.mapM f) none
  | branch test consequent (some alternate) =>
    return branch (← f test) (← consequent.mapM f) (some (← alternate.mapM f))
  | discard expression => return discard (← f expression)
  | str text => return str text
  | num bits => return num bits
  | bool value => return bool value
  | null => return null
  | ident name => return ident name
  | member target property => return member (← f target) property
  | index target position => return index (← f target) (← f position)
  | call callee arguments => return call (← f callee) (← arguments.mapM f)
  | array elements => return array (← elements.mapM f)
  | object properties =>
    return object (← properties.mapM fun property => return (property.1, ← f property.2))
  | not argument => return not (← f argument)
  | binary op left right => return binary op (← f left) (← f right)
  | conditional test consequent alternate =>
    return conditional (← f test) (← f consequent) (← f alternate)
  | arrow params body => return arrow params (← f body)
  | hole => return hole

theorem children_map (f : α → β) (node : Node α) :
    (node.map f).children = node.children.map f := by
  cases node with
  | ret argument => cases argument <;> rfl
  | branch test consequent alternate =>
      cases alternate <;> simp only [map, children, Option.map, Option.getD, List.map_cons,
        List.map_append, List.map_nil]
  | object properties => simp only [map, children, List.map_map, Function.comp_def]
  | _ => rfl

theorem map_map (f : α → β) (g : β → γ) (node : Node α) :
    (node.map f).map g = node.map (g ∘ f) := by
  cases node <;> simp [map, Function.comp_def]

/-- The new parts only depend on what becomes of the parts there are. -/
theorem map_congr {f g : α → β} {node : Node α} (h : ∀ x ∈ node.children, f x = g x) :
    node.map f = node.map g := by
  cases node with
  | ret argument => cases argument <;> simp_all [map, children]
  | branch test consequent alternate => cases alternate <;> simp_all [map, children]
  | object properties =>
      simp only [map, object.injEq]
      refine List.map_congr_left fun property hproperty => ?_
      rw [h property.2 (List.mem_map_of_mem hproperty)]
  | _ => simp_all [map, children]

theorem map_id (node : Node α) : node.map id = node := by
  cases node <;> simp [map]

end Node

end Script

end RenderFold
