import RenderFold.Component.RenderFunction
import RenderFold.Component.Delayed
import RenderFold.View.Basic

/-!
# Components

A component definition says how to render a component; an instance is one
use of it, with its own scope and its own render function. Rendering happens
in two passes, one without the data of any request and one with the data of
a real one, and an instance belongs to one of them.

## Main definitions

* `Pass`: The pass an instance belongs to.
* `Hook`: Work done before a component renders.
* `Component`, `Draft`: A definition, and one that is not read yet.
* `Instance`: A use of a component.
-/

namespace RenderFold

/-- The pass an instance belongs to: without the data of any request, or with
    the data of a real one. -/
inductive Pass where
  | static
  | dynamic
  deriving DecidableEq, Inhabited

/-- What a prefetch hook is told: the pass, and the scope as it stands. -/
structure Request where
  pass : Pass
  scope : Fields Value

/-- Work done before a component renders. Its result goes into the scope. -/
abbrev Hook := Request → Delayed (Except String Value)

/-- What a tag can be registered as. -/
inductive Entry where
  | component (id : ComponentId)
  | deferred (id : FactoryId)
  deriving DecidableEq, Inhabited

/-- Style sheets by id. -/
abbrev Styles := Fields String

/-- A component definition. -/
structure Component where
  name : String
  render : Option RenderFunction
  template : Option String
  data : Fields Value
  prefetch : List Hook
  components : Fields Entry
  styles : Styles
  scopeId : Option String

/-- A definition with nothing but a name. -/
def Component.named (name : String) : Component where
  name
  render := none
  template := none
  data := []
  prefetch := []
  components := []
  styles := []
  scopeId := none

instance : Inhabited Component := ⟨Component.named ""⟩

/-- A definition whose render function has not been read yet. Data that is
    not an object counts as none. -/
structure Draft where
  name : String
  render : Option String
  template : Option String
  data : Value
  prefetch : List Hook
  components : Fields Entry
  styles : Styles
  scopeId : Option String

/-- Read the render function of a draft, if it has one. -/
def Draft.build (draft : Draft) : Except RenderError Component := do
  let render ← match draft.render with
    | none => pure none
    | some source =>
      match RenderFunction.compile source with
      | .ok function => pure (some function)
      | .error e => throw (.parse e)
  return {
    name := draft.name
    render
    template := draft.template
    data := draft.data.object?.getD []
    prefetch := draft.prefetch
    components := draft.components
    styles := draft.styles
    scopeId := draft.scopeId }

/-- One use of a component. `parent` is the name of the component that uses
    it. -/
structure Instance where
  component : Component
  pass : Pass
  parent : Option String
  scope : Fields Value
  render : Option RenderFunction
  deriving Inhabited

namespace Instance

/-- A new instance. Its scope is the data of the definition overlaid with the
    props of the node. -/
def create (component : Component) (data : NodeData) (parent : Option Instance) (pass : Pass) :
    Instance where
  component
  pass
  parent := parent.map (·.component.name)
  scope := Fields.overlay component.data data.props
  render := component.render

/-- Put another render function in place of an instance's own, and take that. -/
def replaceRender (render : Option RenderFunction) : StateM Instance (Option RenderFunction) :=
  modifyGet fun inst => (inst.render, { inst with render })

/-- Put the fields of an object into the scope. Other values change nothing. -/
def merge (inst : Instance) (value : Value) : Instance :=
  { inst with scope := Fields.overlay inst.scope (value.object?.getD []) }

end Instance

end RenderFold
