import RenderFold.View.NodeData

/-!
# Views

What a render function returns: a tree of texts, comments, elements and
ready-made markup, with components and async components at its leaves. A
component is referred to by number; what the number stands for is known to
the engine.

## Main definitions

* `View`: A node of a rendered tree.
* `View.textMarkup?`: The markup of a text.
-/

namespace RenderFold

/-- The number of a component definition. -/
abbrev ComponentId := Nat

/-- The number of an async component factory. -/
abbrev FactoryId := Nat

/-- A node of a rendered tree. A raw text is written verbatim, and a fragment
    is markup around children. -/
inductive View where
  | text (content : String) (raw : Bool)
  | comment (content : String)
  | element (tag : String) (data : NodeData) (children : List View)
  | component (id : ComponentId) (data : NodeData)
  | deferred (id : FactoryId) (data : NodeData)
  | fragment (opening : String) (closing : String) (children : List View)
  deriving Inhabited

namespace View

/-- The name of the kind of node. -/
def kind : View → String
  | text .. => "Text"
  | comment _ => "Comment"
  | element .. => "Element"
  | component .. => "Component"
  | deferred .. => "AsyncComponent"
  | fragment .. => "StringFragment"

/-- The children of an element or a fragment. -/
def children : View → List View
  | element _ _ children => children
  | fragment _ _ children => children
  | _ => []

/-- The markup of a text: verbatim if it is raw and escaped otherwise. -/
def textMarkup? : View → Option String
  | text content true => some content
  | text content false => some (Markup.escape content)
  | _ => none

end View

end RenderFold
