import RenderFold.Component.Basic

/-!
# Render Plans

While a view is written, a plan is told about every component that is
entered and left, and may put another render function in place of the
component's own.

## Main definitions

* `Plan`: Answers to entering and leaving, over some state.
* `Plan.baseline`: The plan that changes nothing.
* `Plan.replacing`: The plan that goes by the names of components.
* `Plan.Event`, `Plan.traced`: What a plan is told, and a plan that keeps a
  record of it.
-/

namespace RenderFold

/-- Answers to entering and leaving a component. -/
structure Plan (σ : Type) where
  enter : Component → NodeData → σ → Option RenderFunction × σ
  leave : σ → σ

/-- Every component keeps its own render function. -/
def Plan.baseline : Plan Unit where
  enter := fun _ _ _ => (none, ())
  leave := id

namespace Plan

/-- Components get the render functions listed under their names. -/
def replacing (functions : Fields RenderFunction) : Plan Unit where
  enter := fun component _ _ => (Fields.get? functions component.name, ())
  leave := id

/-- What a plan is told: that a component is entered, with the place that its
    node gives, or that one is left. -/
inductive Event where
  | enter (component : String) (place : Option Nat)
  | leave
  deriving DecidableEq, Inhabited

/-- A plan that also records what it is told, latest first. -/
def traced {σ : Type} (plan : Plan σ) : Plan (σ × List Event) where
  enter := fun component data (state, events) =>
    let (function, state) := plan.enter component data state
    (function, state, .enter component.name data.treeSlot :: events)
  leave := fun (state, events) => (plan.leave state, .leave :: events)

end Plan

end RenderFold
