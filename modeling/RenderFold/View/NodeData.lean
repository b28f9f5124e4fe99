import RenderFold.Error
import RenderFold.Data.Text
import RenderFold.Markup.Escape

/-!
# Node Data

What a render function says about a node besides its tag and children:
attributes, props, classes, styles, directives. It is written as an object
literal whose known keys are taken over and whose other keys are ignored.

## Main definitions

* `NodeData`: The data of a node.
* `NodeData.ofValue`: Read it off an object.
* `NodeData.toValue`: The fields that are set, with the order of names kept.
* `NodeData.content?`: Markup that takes the place of the children.
-/

namespace RenderFold

/-- A directive applied to a node. -/
structure DirectiveBinding where
  name : String
  value : Value
  deriving Inhabited

/-- The data of a node. `treeSlot` is the place of a component among the
    components folded together with the one that renders it. -/
structure NodeData where
  attrs : Fields Value
  domProps : Fields Value
  staticClass : Option String
  dynamicClass : Option Value
  staticStyle : Option String
  dynamicStyle : Option Value
  props : Fields Value
  directives : List DirectiveBinding
  treeSlot : Option Nat

namespace NodeData

/-- No data. -/
def empty : NodeData where
  attrs := []
  domProps := []
  staticClass := none
  dynamicClass := none
  staticStyle := none
  dynamicStyle := none
  props := []
  directives := []
  treeSlot := none

instance : Inhabited NodeData := ⟨empty⟩

/-- Data with props only. A value that is not an object gives none. -/
def withProps (props : Value) : NodeData := { empty with props := props.object?.getD [] }

/-- A part that has to be an object if it is there. -/
def part (key : String) : Value → Except RenderError (Fields Value)
  | .object fields => .ok fields
  | .null => .ok []
  | _ => .error (.typeError (.partShape key))

/-- A directive: an object with a name and perhaps a value. -/
def directive (item : Value) : Except RenderError DirectiveBinding :=
  match (item.field? "name").bind Value.str? with
  | some name => .ok ⟨name, (item.field? "value").getD .null⟩
  | none => .error (.typeError .directiveName)

/-- Take over one field of the object. -/
def addField (data : NodeData) (key : String) (value : Value) : Except RenderError NodeData :=
  match key with
  | "attrs" => return { data with attrs := ← part key value }
  | "domProps" => return { data with domProps := ← part key value }
  | "props" => return { data with props := ← part key value }
  | "staticClass" => return { data with staticClass := value.str? }
  | "class" => return { data with dynamicClass := some value }
  | "staticStyle" => return { data with staticStyle := value.str? }
  | "style" => return { data with dynamicStyle := some value }
  | "treeSlot" => return { data with treeSlot := value.index? }
  | "directives" =>
    match value with
    | .array items => do
      let bindings ← items.mapM directive
      return { data with directives := data.directives ++ bindings }
    | _ => .error (.typeError .directivesShape)
  | _ => return data

/-- Read the data off an object, field by field. -/
def ofValue : Value → Except RenderError NodeData
  | .object fields => fields.foldlM (fun data field => data.addField field.1 field.2) empty
  | _ => .error (.typeError .dataShape)

/-- Fields as a list of pairs, unless there are none. -/
def partValue (fields : Fields Value) : Option Value :=
  if fields.isEmpty then none
  else some (.array (fields.map fun field => .array [.str field.1, field.2]))

/-- The fields that are set. Parts are lists of pairs. -/
def toValue (data : NodeData) : Value :=
  let parts : Fields (Option Value) :=
    [("attrs", partValue data.attrs), ("domProps", partValue data.domProps),
      ("props", partValue data.props), ("staticClass", data.staticClass.map .str),
      ("class", data.dynamicClass), ("staticStyle", data.staticStyle.map .str),
      ("style", data.dynamicStyle),
      ("directives", partValue (data.directives.map fun binding => (binding.name, binding.value))),
      ("treeSlot", data.treeSlot.map fun place => .int place)]
  .object (parts.filterMap fun (key, value) => value.map fun value => (key, value))

/-- Markup that takes the place of the children: given as it stands, or as a
    text to be escaped. -/
def content? (data : NodeData) : Option String :=
  match Fields.get? data.domProps "innerHTML" with
  | some html => some html.display
  | none => (Fields.get? data.domProps "textContent").map fun text => Markup.escape text.display

/-- The first directive of the given name. -/
def directive? (data : NodeData) (name : String) : Option DirectiveBinding :=
  data.directives.find? fun binding => binding.name == name

end NodeData

end RenderFold
