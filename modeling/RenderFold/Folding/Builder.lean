import RenderFold.Folding.FoldedTree

/-!
# Building Folded Trees

A folded tree is built while components are entered and left. An entry is
open as long as its component is, and is closed with the render function
that was decided on. It then goes under the innermost open entry, or becomes
the root if there is none.

## Main definitions

* `OpenEntry`, `Builder`: Entries that are open, and the root so far.
* `Builder.enter`, `Builder.close`: Entering and leaving a component.
-/

namespace RenderFold

/-- An entry whose component is still open, with the children closed so far
    and the expressions that use them. -/
structure OpenEntry where
  component : String
  styles : Styles
  children : List (Script.Id × FoldedTree)
  deriving Inhabited

/-- Entries that are open, innermost first, and the root once it is closed. -/
structure Builder where
  entries : List OpenEntry
  root : Option FoldedTree
  deriving Inhabited

namespace Builder

/-- Nothing entered yet. -/
def empty : Builder := ⟨[], none⟩

/-- Open an entry. -/
def enter (builder : Builder) (component : String) (styles : Styles) : Builder :=
  { builder with entries := ⟨component, styles, []⟩ :: builder.entries }

/-- The expressions that use the closed children of the innermost entry. -/
def childSlots (builder : Builder) : List Script.Id :=
  match builder.entries with
  | [] => []
  | entry :: _ => entry.children.map (·.1)

/-- Take the children that stay, and the styles with those of the children
    that do not. A style that is there already stays as it is. -/
def settle (stays : Script.Id → Bool) (styles : Styles) :
    List (Script.Id × FoldedTree) → Styles × List FoldedTree
  | [] => (styles, [])
  | (slot, child) :: rest =>
    if stays slot then
      let (styles, kept) := settle stays styles rest
      (styles, child :: kept)
    else
      -- The child leaves, so what is below it leaves too.
      let styles := child.allStyles.foldl
        (fun styles style => Fields.insertNew styles style.1 style.2) styles
      settle stays styles rest

/-- Put a closed entry under the innermost open one, or make it the root. The
    first root stays the root. -/
def attach (builder : Builder) (slot : Script.Id) (tree : FoldedTree) : Builder :=
  match builder.entries with
  | [] => { builder with root := builder.root <|> some tree }
  | parent :: rest =>
    { builder with
      entries := { parent with children := parent.children ++ [(slot, tree)] } :: rest }

/-- Close the innermost entry, which the expression `slot` uses. `stays` says
    of the expression that uses a child whether the child stays. -/
def close (builder : Builder) (slot : Script.Id) (function : RenderFunction) (isStatic : Bool)
    (stays : Script.Id → Bool) : Builder :=
  match builder.entries with
  | [] => builder
  | entry :: rest =>
    let (styles, children) := settle stays entry.styles entry.children
    attach { builder with entries := rest } slot
      { component := entry.component, function, isStatic, styles, children }

end Builder

end RenderFold
