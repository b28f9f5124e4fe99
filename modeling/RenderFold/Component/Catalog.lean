import RenderFold.Component.Engine

/-!
# Catalogs

Components and async components by name. Each gets the next free number, by
which views and engines refer to it, so a definition can only refer to those
that were there before it.

## Main definitions

* `Catalog`: Definitions and their numbers.
* `Catalog.addComponent`, `Catalog.addFactory`: Adding a definition.
* `Catalog.engine`: An engine for the definitions.
-/

namespace RenderFold

/-- Definitions, and the numbers of those that have names. -/
structure Catalog where
  names : Fields Entry
  components : Array Component
  factories : Array Factory

namespace Catalog

/-- Nothing defined. -/
def empty : Catalog := ⟨[], #[], #[]⟩

/-- Define a component. -/
def addComponent (catalog : Catalog) (name : String) (component : Component) : Catalog :=
  { catalog with
    names := Fields.insert catalog.names name (.component catalog.components.size)
    components := catalog.components.push component }

/-- Define an async component. -/
def addFactory (catalog : Catalog) (name : String) (factory : Factory) : Catalog :=
  { catalog with
    names := Fields.insert catalog.names name (.deferred catalog.factories.size)
    factories := catalog.factories.push factory }

/-- What a name stands for. -/
def entry? (catalog : Catalog) (name : String) : Option Entry := Fields.get? catalog.names name

/-- The component of the given name. -/
def component? (catalog : Catalog) (name : String) : Option ComponentId :=
  match catalog.entry? name with
  | some (.component id) => some id
  | _ => none

/-- The async component of the given name. -/
def factory? (catalog : Catalog) (name : String) : Option FactoryId :=
  match catalog.entry? name with
  | some (.deferred id) => some id
  | _ => none

/-- An engine for the definitions. It compiles no templates and refuses no
    render function. -/
def engine (catalog : Catalog) (globals : Fields Entry) (registry : Registry) : Engine where
  components := fun id => catalog.components[id]?.getD default
  factories := fun id => catalog.factories[id]?.getD default
  globals
  registry
  compiler := none
  refuses := fun _ => none

end Catalog

end RenderFold
