import RenderFold.View.NodeData
import RenderFold.Text.Blank

/-!
# Classes and Styles

The class names and style declarations that the data of a node amounts to,
whichever of the forms they are given in: texts, lists, or objects.

## Main definitions

* `NodeData.classNames`: The class names, in order.
* `NodeData.declarations`: The style declarations, in the order in which
  they apply.
-/

namespace RenderFold

/-- A style declaration: a property and its value. -/
abbrev Declaration := String × String

namespace Style

mutual

/-- The class names a value stands for: the words of a text, those of every
    item of a list, and the names of the true fields of an object. -/
def classNames : Value → List String
  | .str text => Text.words text
  | .array items => itemClassNames items
  | .object fields => (fields.filter fun field => field.2.truthy).map (·.1)
  | _ => []
termination_by structural value => value

/-- The class names of the items of a list. -/
def itemClassNames : List Value → List String
  | [] => []
  | item :: rest => classNames item ++ itemClassNames rest
termination_by structural items => items

end

/-- The declaration in a piece of text, if it has a name and a value. -/
def declaration? (piece : List Char) : Option Declaration := do
  let (name, value) ← Text.cutAt? ':' piece
  let name := Text.trim (String.ofList name)
  let value := Text.trim (String.ofList value)
  if name = "" || value = "" then none else some (name, value)

/-- The declarations in a text, which separates them by semicolons. -/
def parse (text : String) : List Declaration :=
  (Text.splitOn ';' text.toList).filterMap declaration?

/-- Declarations without those of a property. -/
def without (name : String) (declarations : List Declaration) : List Declaration :=
  declarations.filter fun declaration => declaration.1 != name

/-- Let a declaration take the place of earlier ones of the same property. -/
def override (declarations : List Declaration) (name value : String) : List Declaration :=
  without name declarations ++ [(name, value)]

mutual

/-- Add the declarations a value stands for. A text adds its declarations
    after the earlier ones; a field of an object overrides them, and one that
    holds null does nothing. -/
def add (declarations : List Declaration) : Value → List Declaration
  | .str text => declarations ++ parse text
  | .array items => addItems declarations items
  | .object fields =>
    fields.foldl (fun declarations field =>
      match field.2 with
      | .null => declarations
      | value => override declarations field.1 value.text) declarations
  | _ => declarations
termination_by structural value => value

/-- Add the declarations of the items of a list. -/
def addItems (declarations : List Declaration) : List Value → List Declaration
  | [] => declarations
  | item :: rest => addItems (add declarations item) rest
termination_by structural items => items

end

end Style

namespace NodeData

/-- The class names of a node, those written out first. -/
def classNames (data : NodeData) : List String :=
  (data.staticClass.map Text.words).getD [] ++ (data.dynamicClass.map Style.classNames).getD []

/-- The style declarations of a node in the order in which they apply. -/
def declarations (data : NodeData) : List Declaration :=
  let written := (data.staticStyle.map Style.parse).getD []
  match data.dynamicStyle with
  | some style => Style.add written style
  | none => written

end NodeData

end RenderFold
