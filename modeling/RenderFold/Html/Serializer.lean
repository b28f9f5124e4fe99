import RenderFold.Component.Engine
import RenderFold.Html.Plan

/-!
# Serializer

Writes a view as markup, rendering the components in it on the way. The work
that is left is kept on a stack: views to be written, markup to be written
after them, and components to be left. Taking one piece of work off the
stack is a step; a step may put more work in its place but never looks below
it.

## Main definitions

* `Serializer.Work`, `Serializer.Walk`: A piece of work, and the state.
* `Serializer.perform`: What a piece of work does.
* `Engine.html`: The markup of a view.
-/

namespace RenderFold

namespace Serializer

/-- A piece of work. `owner` is the instance whose render function produced
    the view. -/
inductive Work where
  | view (view : View) (owner : Option Instance) (context : TagContext)
  | markup (text : String)
  | leave

/-- The markup so far, the work left, the plan's state and the engine's. -/
structure Walk (σ : Type) where
  out : String
  stack : List Work
  plan : σ
  engine : Engine.State

/-- Work on a view; the state survives a failure. -/
abbrev Walking (σ : Type) := EStateM RenderError (Walk σ)

variable {σ α : Type}

/-- Write markup. -/
def emit (text : String) : Walking σ Unit := modify fun walk => { walk with out := walk.out ++ text }

/-- Put work on top of the stack, to be done in the order given. -/
def push (work : List Work) : Walking σ Unit :=
  modify fun walk => { walk with stack := work ++ walk.stack }

/-- Do something with the engine. -/
def onEngine (work : EngineM α) : Walking σ α := fun walk =>
  match work walk.engine with
  | .ok a engine => .ok a { walk with engine }
  | .error e engine => .error e { walk with engine }

/-- Ask the plan about a component that is entered. -/
def enter (plan : Plan σ) (component : Component) (data : NodeData) :
    Walking σ (Option RenderFunction) :=
  modifyGet fun walk =>
    let (function, state) := plan.enter component data walk.plan
    (function, { walk with plan := state })

/-- Fail if a result is a failure. -/
def ofExcept : Except RenderError α → Walking σ α
  | .ok a => return a
  | .error e => throw e

/-- The children of a node, in the context of the owner's elements. -/
def childWork (owner : Option Instance) (children : List View) : List Work :=
  children.map fun child =>
    .view child owner (.ownedBy (owner.bind (·.component.scopeId)))

/-- Render a component; its root is written next, and then it is left. -/
def component (engine : Engine) (plan : Plan σ) (component : Component) (data : NodeData)
    (owner : Option Instance) (context : TagContext) : Walking σ Unit := do
  let inst := Instance.create component data owner .dynamic
  let planned ← enter plan component data
  -- The plan goes before the component's own function.
  let inst := { inst with render := planned <|> inst.render }
  let (_, inst) ← onEngine (engine.ensureRender inst)
  let inst ← ofExcept (Engine.prefetch inst).value
  let root ← ofExcept (engine.render inst)
  push [.view root (some inst) (context.nest data component.scopeId), .leave]

/-- Write a view. -/
def write (engine : Engine) (plan : Plan σ) (owner : Option Instance) (context : TagContext) :
    View → Walking σ Unit
  | .text content true => emit content
  | .text content false => emit (Markup.escape content)
  | .comment content => emit ("<!--" ++ content ++ "-->")
  | .fragment opening closing children => do
    emit opening
    push (childWork owner children ++ [.markup closing])
  | .element tag data children => do
    emit (engine.registry.startTag tag data context)
    match Markup.endTag? tag with
    | none => return
    | some closing =>
      match data.content? with
      | some content => emit (content ++ closing)
      | none => push (childWork owner children ++ [.markup closing])
  | .component id data => component engine plan (engine.components id) data owner context
  | .deferred id data => do
    match ← onEngine (engine.resolve id) with
    | .component id => component engine plan (engine.components id) data owner context
    | .view view => push [.view view owner context]
    | .views views => push (views.map fun view => .view view owner context)

/-- Do a piece of work. -/
def perform (engine : Engine) (plan : Plan σ) : Work → Walking σ Unit
  | .markup text => emit text
  | .leave => modify fun walk => { walk with plan := plan.leave walk.plan }
  | .view view owner context => write engine plan owner context view

/-- Work until the stack is empty, for at most `steps` steps. -/
def work (engine : Engine) (plan : Plan σ) : Nat → Walking σ Unit
  | 0 => throw .unfinished
  | steps + 1 => do
    let walk ← get
    match walk.stack with
    | [] => return
    | top :: rest =>
      set { walk with stack := rest }
      perform engine plan top
      work engine plan steps

/-- How many steps writing a view may take. -/
def maxSteps : Nat := 1099511627776

end Serializer

/-- The markup of a view, with the plan's state and the engine's state as
    they are left behind, also by a failure. -/
def Engine.html {σ : Type} (engine : Engine) (plan : Plan σ) (root : View) (state : σ)
    (engineState : Engine.State) : Except RenderError String × σ × Engine.State :=
  match Serializer.work engine plan Serializer.maxSteps
      ⟨"", [.view root none .empty], state, engineState⟩ with
  | .ok _ walk => (.ok walk.out, walk.plan, walk.engine)
  | .error e walk => (.error e, walk.plan, walk.engine)

end RenderFold
