import RenderFold.Component.Evaluator
import RenderFold.Component.Factory
import RenderFold.Component.Queue
import RenderFold.Data.Cache
import RenderFold.View.StartTag

/-!
# Engine

An engine knows what the numbers of components and factories stand for, and
does what cannot be told from a node alone: it compiles templates, runs
prefetch hooks, resolves async components and runs render functions.

What it remembers between two of these is its state: how often each factory
was called, what it resolved to, and the templates compiled so far. The
state also survives a failure.

## Main definitions

* `Engine`, `Engine.State`, `EngineM`: An engine, its state, and work that
  uses it.
* `Engine.ensureRender`: The render function of an instance.
* `Engine.prefetch`, `Engine.prefetchBoth`: Hooks, for one instance or for
  two side by side.
* `Engine.resolve`, `Engine.resolveBoth`: Async components, likewise.
* `Engine.render`: Run an instance's render function.
-/

namespace RenderFold

/-- What an engine is set up with. `refuses` gives a reason for not running a
    render function. -/
structure Engine where
  components : ComponentId → Component
  factories : FactoryId → Factory
  globals : Fields Entry
  registry : Registry
  compiler : Option (String → Except String String)
  refuses : RenderFunction → Option String

namespace Engine

/-- What an engine remembers. -/
structure State where
  factories : FactoryId → FactoryState
  templates : SourceCache RenderFunction
  compilations : Nat

/-- The state of an engine that has done nothing yet. -/
def initial (engine : Engine) : State where
  factories := fun id => (engine.factories id).initial
  templates := .empty
  compilations := 0

/-- Change the state of one factory. -/
def State.setFactory (state : State) (id : FactoryId) (value : FactoryState) : State :=
  { state with factories := fun other => if other = id then value else state.factories other }

end Engine

/-- Work that uses an engine's state and may fail. -/
abbrev EngineM := EStateM RenderError Engine.State

namespace Engine

variable (engine : Engine)

/-- Count a run of the template compiler. -/
def countCompilation : EngineM Unit :=
  modify fun state => { state with compilations := state.compilations + 1 }

/-- Keep a compiled template. -/
def keepTemplate (template : String) (function : RenderFunction) : EngineM Unit :=
  modify fun state =>
    { state with templates := state.templates.insert fingerprint template function }

/-- Compile the template of a component, once for every template text. -/
def compileTemplate (component : Component) : EngineM RenderFunction := do
  let some template := component.template | throw (.missingRender component.name)
  match (← get).templates.get? fingerprint template with
  | some function => return function
  | none =>
    let some compiler := engine.compiler | throw (.missingCompiler component.name)
    -- The compiler counts as run even if the source it gives cannot be read.
    countCompilation
    match compiler template with
    | .error message => throw (.templateCompile component.name message)
    | .ok source =>
      match RenderFunction.compile source with
      | .error e => throw (.parse e)
      | .ok function =>
        keepTemplate template function
        return function

/-- The render function of an instance, compiled from the template if there
    is none, and the instance with that function. -/
def ensureRender (inst : Instance) : EngineM (RenderFunction × Instance) := do
  match inst.render with
  | some function => return (function, inst)
  | none =>
    if inst.component.template.isNone then throw (.missingRender inst.component.name)
    else
      let function ← engine.compileTemplate inst.component
      return (function, { inst with render := some function })

/-- Run the hooks of an instance side by side. All of them see the scope as
    it is before any result comes in, and the results go into the scope in
    the order of the hooks once all are there. -/
def prefetch (inst : Instance) : Delayed (Except RenderError Instance) :=
  let request : Request := ⟨inst.pass, inst.scope⟩
  (Delayed.joinAll (inst.component.prefetch.map fun hook => hook request)).map fun
    | .ok results => .ok (results.foldl Instance.merge inst)
    | .error message => .error (.prefetch inst.component.name message)

/-- The instance that work leaves behind: the result if the work has settled
    with one, and what was there before otherwise. -/
def leftBehind (before : Instance) (settled : Bool) : Except RenderError Instance → Instance
  | .ok after => if settled then after else before
  | .error _ => before

/-- Run the hooks of two instances side by side. A failure on one side ends
    the work of the other; what that side has done by then remains. -/
def prefetchBoth (first second : Instance) :
    Except RenderError Unit × Instance × Instance :=
  let a := prefetch first
  let b := prefetch second
  let both := Delayed.join (fun _ _ => ()) a b
  (both.value, leftBehind first (Delayed.settledFirst a both.delay) a.value,
    leftBehind second (Delayed.settledSecond a b both.delay) b.value)

/-- Whether there are hooks to run. -/
def hasPrefetch (inst : Instance) : Bool := !inst.component.prefetch.isEmpty

/-- A request for what a factory resolves to: already answered when it was
    made, or to be answered by calling the factory. -/
inductive Asked where
  | answered (resolution : Resolution)
  | call (id : FactoryId)
  deriving Inhabited

/-- Ask a factory. Whether it has resolved is looked at now, and it is called
    only when the answer is waited for. -/
def ask (id : FactoryId) : EngineM Asked := do
  match ((← get).factories id).cached with
  | some resolution => return .answered resolution
  | none => return .call id

/-- Start waiting for an answer. -/
def begin (asked : Asked) : EngineM (Delayed (Except RenderError Resolution)) := do
  match asked with
  | .answered resolution => return .now (.ok resolution)
  | .call id =>
    match engine.factories id with
    | .resolved resolution => return .now (.ok resolution)
    | .called report =>
      let state := (← get).factories id
      modify (·.setFactory id { state with calls := state.calls + 1 })
      return (report state.calls).map Report.outcome

/-- Keep the answer to a request that the factory was called for. -/
def keep (asked : Asked) : Except RenderError Resolution → EngineM Unit
  | .error _ => return
  | .ok resolution =>
    match asked with
    | .answered _ => return
    | .call id => modify fun state =>
        state.setFactory id { state.factories id with cached := some resolution }

/-- What a factory resolves to. -/
def resolve (id : FactoryId) : EngineM Resolution := do
  let asked ← ask id
  let work ← engine.begin asked
  keep asked work.value
  liftExcept work.value
where
  /-- Fail if the outcome is a failure. -/
  liftExcept : Except RenderError Resolution → EngineM Resolution
    | .ok resolution => return resolution
    | .error e => throw e

/-- Wait for two answers side by side. A first side that fails at once keeps
    the second one from being started. Answers are kept in the order in which
    they come in, so the last one stays. -/
def resolveBoth (first second : Asked) : EngineM (Resolution × Resolution) := do
  let a ← engine.begin first
  -- A failure that is there at once is seen before the other side starts.
  match a with
  | ⟨0, .error e⟩ => throw e
  | _ =>
    let b ← engine.begin second
    let both := Delayed.join Prod.mk a b
    let keepFirst : EngineM Unit :=
      if Delayed.settledFirst a both.delay then keep first a.value else return
    let keepSecond : EngineM Unit :=
      if Delayed.settledSecond a b both.delay then keep second b.value else return
    -- The side that settles later is kept last.
    if a.delay ≤ b.delay then
      keepFirst
      keepSecond
    else
      keepSecond
      keepFirst
    match both.value with
    | .ok resolutions => return resolutions
    | .error e => throw e

/-- Run the render function of an instance. -/
def render (inst : Instance) : Except RenderError View :=
  match inst.render with
  | none => .error (.missingRender inst.component.name)
  | some function =>
    match engine.refuses function with
    | some reason => .error (.typeError (.refused reason))
    | none =>
      Evaluator.run ⟨inst.component.name, inst.scope, inst.component.components, engine.globals⟩
        function.tree

end Engine

end RenderFold
