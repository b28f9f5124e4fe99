import RenderFold.View.Style

/-!
# Start Tags

The start tag of an element is put together in a fixed order: directives
other than `show` change the data, the `show` directives of the element and
of the components it is the root of are merged, every module adds its text,
and the scope ids come last.

An element is hidden if any of those `show` directives is false. Hiding
drops what the styles say about `display` and adds `display:none` after
everything else, so it cannot be overridden.

## Main definitions

* `TagContext`: What an element inherits from its place in the tree.
* `Registry`: Directives by name, and modules in order.
* `Registry.standard`: The modules for attributes, properties, classes and
  styles.
* `Registry.startTag`: The start tag of an element.
-/

namespace RenderFold

/-- What an element inherits from its place in the tree: the `show` values of
    the components it is the root of, and the scope ids of the components it
    belongs to. -/
structure TagContext where
  shown : List Bool
  scopeIds : List String
  deriving DecidableEq, Inhabited

namespace TagContext

/-- Nothing inherited. -/
def empty : TagContext := ⟨[], []⟩

/-- The context of an element that a component with this scope id renders. -/
def ownedBy (scopeId : Option String) : TagContext := ⟨[], scopeId.toList⟩

/-- The context of the root of a component whose own node has this context
    and this data. -/
def nest (context : TagContext) (data : NodeData) (scopeId : Option String) : TagContext where
  shown := context.shown ++ ((data.directive? "show").map (·.value.truthy)).toList
  scopeIds := context.scopeIds ++ scopeId.toList

end TagContext

/-- A directive changes the data of a node before its start tag is built. -/
abbrev Directive := DirectiveBinding → NodeData → NodeData

/-- A module adds a text to the start tag. -/
abbrev TagModule := NodeData → Option String

/-- Directives by name, and modules in the order in which they run. -/
structure Registry where
  directives : Fields Directive
  modules : List (String × TagModule)

namespace Registry

/-- No directives and no modules. -/
def empty : Registry := ⟨[], []⟩

/-- Add a directive in place of any earlier one of the same name. -/
def directive (registry : Registry) (name : String) (directive : Directive) : Registry :=
  { registry with directives := Fields.insert registry.directives name directive }

/-- Add a module after the others. -/
def module (registry : Registry) (name : String) (module : TagModule) : Registry :=
  { registry with modules := registry.modules ++ [(name, module)] }

/-- One attribute. Null and false leave it out, and true writes its name
    alone. -/
def attr (name : String) : Value → String
  | .null => ""
  | .bool false => ""
  | .bool true => " " ++ name
  | value => " " ++ name ++ "=\"" ++ Markup.escape value.text ++ "\""

/-- A text, unless it is empty. -/
def nonEmpty (text : String) : Option String := if text = "" then none else some text

/-- The attributes of a node. -/
def attributes (fields : Fields Value) : Option String :=
  nonEmpty (String.join (fields.map fun field => attr field.1 field.2))

/-- The properties of a node, which are written as attributes except for the
    two that give its content. -/
def properties (fields : Fields Value) : Option String :=
  attributes (fields.filter fun field => field.1 != "innerHTML" && field.1 != "textContent")

/-- The class attribute. -/
def classAttribute (names : List String) : Option String :=
  if names.isEmpty then none
  else some (" class=\"" ++ Markup.escape (" ".intercalate names) ++ "\"")

/-- The style attribute. -/
def styleAttribute (declarations : List Declaration) : Option String :=
  if declarations.isEmpty then none
  else
    let text := ";".intercalate (declarations.map fun (name, value) => name ++ ":" ++ value)
    some (" style=\"" ++ Markup.escape text ++ "\"")

/-- The modules for attributes, properties, classes and styles. -/
def standard : Registry where
  directives := []
  modules :=
    [("attrs", fun data => attributes data.attrs),
      ("domProps", fun data => properties data.domProps),
      ("class", fun data => classAttribute data.classNames),
      ("style", fun data => styleAttribute data.declarations)]

/-- Let a directive change the data. The `show` directive is not run here,
    and a directive that is not known does nothing. -/
def applyDirective (registry : Registry) (data : NodeData) (binding : DirectiveBinding) :
    NodeData :=
  if binding.name = "show" then data
  else match Fields.get? registry.directives binding.name with
    | some directive => directive binding data
    | none => data

/-- The `show` values that decide about a node. -/
def shows (data : NodeData) (context : TagContext) : List Bool :=
  (data.directives.filter fun binding => binding.name == "show").map (·.value.truthy)
    ++ context.shown

/-- The data of a node that is hidden. -/
def hide (data : NodeData) : NodeData :=
  let declarations := Style.without "display" data.declarations ++ [("display", "none")]
  let fields := declarations.map fun (name, value) => (name, Value.str value)
  { data with
    staticStyle := none
    dynamicStyle := some (.object (Fields.overlay [] fields)) }

/-- The data that the modules see: changed by the directives and hidden if
    some `show` value is false. -/
def prepare (registry : Registry) (data : NodeData) (context : TagContext) : NodeData :=
  let changed := data.directives.foldl registry.applyDirective { data with directives := [] }
  let merged := if (shows data context).contains false then hide changed else changed
  { merged with directives := data.directives }

/-- The scope ids, each once. -/
def scopeText (scopeIds : List String) : String :=
  String.join (scopeIds.eraseDups.map (" " ++ ·))

/-- The start tag of an element. -/
def startTag (registry : Registry) (tag : String) (data : NodeData) (context : TagContext) :
    String :=
  let prepared := registry.prepare data context
  let texts := registry.modules.filterMap fun (_, module) => module prepared
  "<" ++ tag ++ String.join texts ++ scopeText context.scopeIds ++ ">"

end Registry

end RenderFold
