import RenderFold.Component.Basic
import RenderFold.View.StartTag

/-!
# Frames

Folding compares what a component renders in the static pass with what it
renders in the dynamic pass, node by node. A twin is a thing and its
counterpart in the other pass, and a pair is two nodes at the same place
together with the expression that is believed to produce the static one.

A frame is open for every node whose children are being compared. It knows
which of them are still to be compared, and what is to be done when there
are none left.

## Main definitions

* `Twin`, `Pair`: A thing in both passes, and nodes at the same place.
* `Pairs`: The children of a node and which of them are left.
* `Boundary`, `Frame`: A component that was entered, and a node whose
  children are being compared.
-/

namespace RenderFold

/-- A thing of the static pass and its counterpart of the dynamic pass. -/
structure Twin (α : Type) where
  static : α
  dynamic : α
  deriving DecidableEq, Inhabited

/-- Apply a function on both sides. -/
def Twin.map {α β : Type} (f : α → β) (twin : Twin α) : Twin β :=
  ⟨f twin.static, f twin.dynamic⟩

/-- Two nodes at the same place, with the expression that is believed to
    produce the static one and what each inherits from its place. -/
structure Pair where
  view : Twin View
  slot : Script.Id
  context : Twin TagContext
  deriving Inhabited

/-- The children of a node: the expressions of all of them, and the pairs
    that are still to be compared. -/
structure Pairs where
  slots : List Script.Id
  left : List Pair
  deriving Inhabited

namespace Pairs

/-- Children of which none has been compared. -/
def ofList (pairs : List Pair) : Pairs := ⟨pairs.map (·.slot), pairs⟩

/-- The next pair, and what is left without it. -/
def next? (pairs : Pairs) : Option (Pair × Pairs) :=
  match pairs.left with
  | [] => none
  | pair :: rest => some (pair, { pairs with left := rest })

/-- How many children there are, compared or not. -/
def size (pairs : Pairs) : Nat := pairs.slots.length

/-- Whether every child has been compared. -/
def isExhausted (pairs : Pairs) : Bool := pairs.left.isEmpty

end Pairs

/-- A component that was entered: the expression that uses it, the one that
    produces its root, its static instance, the render function it has on
    its own, and the instances around it. -/
structure Boundary where
  slot : Script.Id
  rootSlot : Script.Id
  inst : Instance
  own : RenderFunction
  around : Option (Twin Instance)
  deriving Inhabited

/-- A node whose children are being compared. -/
inductive Frame where
  /-- An element, or markup around children; `closing` ends it. -/
  | element (slot : Script.Id) (closing : String) (pairs : Pairs)
  /-- Nodes that one expression produces together. -/
  | group (slot : Script.Id) (pairs : Pairs)
  /-- A component and its root. -/
  | component (boundary : Boundary) (pairs : Pairs)
  deriving Inhabited

namespace Frame

/-- The children. -/
def pairs : Frame → Pairs
  | element _ _ pairs => pairs
  | group _ pairs => pairs
  | component _ pairs => pairs

/-- The same frame with other children. -/
def withPairs (pairs : Pairs) : Frame → Frame
  | element slot closing _ => element slot closing pairs
  | group slot _ => group slot pairs
  | component boundary _ => component boundary pairs

/-- The expression that produces the node. -/
def slot : Frame → Script.Id
  | element slot _ _ => slot
  | group slot _ => slot
  | component boundary _ => boundary.slot

/-- The name of the kind of frame. -/
def kind : Frame → String
  | element .. => "element"
  | group .. => "fragment"
  | component .. => "component"

end Frame

end RenderFold
