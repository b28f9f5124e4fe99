import RenderFold.Html.Plan

/-!
# Folded Trees

What folding produces: for every component that is still used, the render
function it is to have from now on, and its styles. The tree has the shape
of the components that use one another. A component that folded into its
parent leaves the tree, and its styles move to the parent.

A folded tree serves as a render plan. The root belongs to the component
entered first, and a component below one that has an entry belongs to the
child that the `treeSlot` of its node names. A component that has no entry
keeps its own render function, and so do all components below it.

## Main definitions

* `FoldedTree`: An entry and the entries of the components it uses.
* `FoldedTree.count`, `FoldedTree.allStyles`: The entries and styles of a
  whole tree.
* `FoldedTree.plan`: The tree as a render plan.
-/

namespace RenderFold

/-- The entry of a component, with the entries of the components it uses in
    the order in which its render function addresses them. The entry is
    static if the render function returns one literal. -/
structure FoldedTree where
  component : String
  function : RenderFunction
  isStatic : Bool
  styles : Styles
  children : List FoldedTree
  deriving Inhabited

namespace FoldedTree

mutual

/-- How many entries a tree has. -/
def count : FoldedTree → Nat
  | .mk _ _ _ _ children => countAll children + 1
termination_by structural tree => tree

/-- How many entries some trees have. -/
def countAll : List FoldedTree → Nat
  | [] => 0
  | tree :: rest => count tree + countAll rest
termination_by structural trees => trees

end

mutual

/-- Write the styles of a tree over others: those of an entry before those of
    its children, and those of a later child before those of an earlier
    one. -/
def stylesOver (styles : Styles) : FoldedTree → Styles
  | .mk _ _ _ own children => childStylesOver (Fields.overlay styles own) children
termination_by structural tree => tree

/-- Write the styles of some children over others. -/
def childStylesOver (styles : Styles) : List FoldedTree → Styles
  | [] => styles
  | tree :: rest => stylesOver (childStylesOver styles rest) tree
termination_by structural trees => trees

end

/-- The styles of every entry. -/
def allStyles (tree : FoldedTree) : Styles := stylesOver [] tree

/-- The entry that a component belongs to if `around` are the entries of the
    components around it, innermost first and `none` for those without. -/
def entry? (tree : FoldedTree) (component : Component) (data : NodeData)
    (around : List (Option FoldedTree)) : Option FoldedTree :=
  let candidate := match around with
    | [] => some tree
    | none :: _ => none
    | some parent :: _ => data.treeSlot.bind fun place => parent.children[place]?
  candidate.filter fun entry => entry.component == component.name

/-- The tree as a render plan. Its state is the entries of the components
    that are open. -/
def plan (tree : FoldedTree) : Plan (List (Option FoldedTree)) where
  enter := fun component data around =>
    let entry := tree.entry? component data around
    (entry.map (·.function), entry :: around)
  leave := List.tail

end FoldedTree

end RenderFold
