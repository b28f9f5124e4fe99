import RenderFold.Component.Catalog
import RenderFold.Manifest.Reading

/-!
# Views as Data

Views are described by objects. The field that is there tells the kind of
node: `text`, `comment`, `tag`, `component`, `async` or `open`. Components
are referred to by name when a view is read. When one is written, an async
component only says whether it has resolved.

## Main definitions

* `Catalog.view`, `Catalog.resolution`: Reading.
* `Engine.viewValue`, `Engine.resolutionValue`: Writing.
-/

namespace RenderFold

open Reading (field text list listOf optional orElse require)

/-- Node data, empty if it is missing. -/
def Reading.data : Value → Reading NodeData
  | .null => .ok .empty
  | value => ofRender (NodeData.ofValue value)

namespace Catalog

variable (catalog : Catalog)

/-- The component that a value names. -/
def readComponent (value : Value) : Reading ComponentId := do
  require "the name of a component" (catalog.component? (← text value))

/-- The async component that a value names. -/
def readFactory (value : Value) : Reading FactoryId := do
  require "the name of an async component" (catalog.factory? (← text value))

/-- What a value names. -/
def readEntry (value : Value) : Reading Entry := do
  require "the name of a definition" (catalog.entry? (← text value))

/-- A view that nests at most `depth` levels deep. -/
def viewTo : Nat → Value → Reading View
  | 0, _ => Reading.expected "a view that is not so deep"
  | depth + 1, value => do
    let data := Reading.data (field value "data")
    let children := listOf (viewTo depth) (field value "children")
    match value.field? "text", value.field? "comment", value.field? "tag",
      value.field? "component", value.field? "async", value.field? "open" with
    | some content, _, _, _, _, _ =>
      return .text (← text content) (← orElse false Reading.flag (field value "raw"))
    | _, some content, _, _, _, _ => return .comment (← text content)
    | _, _, some tag, _, _, _ => return .element (← text tag) (← data) (← children)
    | _, _, _, some name, _, _ => return .component (← catalog.readComponent name) (← data)
    | _, _, _, _, some name, _ => return .deferred (← catalog.readFactory name) (← data)
    | _, _, _, _, _, some opening =>
      return .fragment (← text opening) (← orElse "" text (field value "close")) (← children)
    | _, _, _, _, _, _ => Reading.expected "a view"

/-- How deep a view given as data may nest. -/
def maxDepth : Nat := 1048576

/-- A view. -/
def view (value : Value) : Reading View := catalog.viewTo maxDepth value

/-- What an async component resolves to. -/
def resolution (value : Value) : Reading Resolution := do
  match value.field? "component", value.field? "node", value.field? "nodes" with
  | some name, _, _ => return .component (← catalog.readComponent name)
  | _, some node, _ => return .view (← catalog.view node)
  | _, _, some nodes => return .views (← listOf catalog.view nodes)
  | _, _, _ => Reading.expected "a resolution"

end Catalog

namespace Engine

variable (engine : Engine) (state : Engine.State)

mutual

/-- A view as data. -/
def viewValue : View → Value
  | .text content raw => .object [("text", .str content), ("raw", .bool raw)]
  | .comment content => .object [("comment", .str content)]
  | .element tag data children =>
    .object [("tag", .str tag), ("data", data.toValue),
      ("children", .array (viewValues children))]
  | .component id data =>
    .object [("component", .str (engine.components id).name), ("data", data.toValue)]
  | .deferred id data =>
    .object [("async", .bool (state.factories id).cached.isSome), ("data", data.toValue)]
  | .fragment opening closing children =>
    .object [("open", .str opening), ("close", .str closing),
      ("children", .array (viewValues children))]
termination_by structural view => view

/-- Views as data. -/
def viewValues : List View → List Value
  | [] => []
  | view :: rest => viewValue view :: viewValues rest
termination_by structural views => views

end

/-- What an async component resolved to, as data. -/
def resolutionValue : Resolution → Value
  | .component id => .object [("component", .str (engine.components id).name)]
  | .view view => .object [("node", engine.viewValue state view)]
  | .views views => .object [("nodes", .array (engine.viewValues state views))]

end Engine

end RenderFold
