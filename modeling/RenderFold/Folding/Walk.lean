import RenderFold.Folding.Builder
import RenderFold.Folding.Error
import RenderFold.Folding.Frame
import RenderFold.Folding.Options
import RenderFold.Folding.Program
import RenderFold.Folding.Synthesizer

/-!
# Walks

A walk goes through what two passes rendered, both at once, depth first and
from left to right. It keeps a frame for every node it is inside, so it can
stop wherever it has to wait for something and go on from there later.

It has to wait for prefetch hooks before a component can be rendered, and
for async components that have not resolved. It then hands out a suspension.
Whoever holds one can run the work it waits for, which gives a value and a
continuation, and hand both back.

## Main definitions

* `Pending`, `Continuation`, `Suspension`: What a walk waits with and for.
* `Resolved`, `Suspension.await`: What the work gives, and running it.
* `Walk`, `Walking`: The state of a walk, and a step of it.
* `Walk.start`: A walk that has not gone anywhere yet.
-/

namespace RenderFold

open Script (Id)

/-- A component whose instances are there but not rendered yet. The contexts
    are those of its root. -/
structure Pending where
  slot : Id
  function : Id
  instances : Twin Instance
  own : RenderFunction
  context : Twin TagContext
  deriving Inhabited

/-- Where a walk goes on when what it waits for is there: at a component that
    can be rendered, or at async components that have resolved. -/
inductive Continuation where
  | component (pending : Pending)
  | deferred (pair : Pair) (data : Twin NodeData)
  deriving Inhabited

/-- What a walk waits for, with what it needs to go on. -/
inductive Suspension where
  | component (pending : Pending)
  | deferred (pair : Pair) (data : Twin NodeData) (asked : Twin Engine.Asked)
  deriving Inhabited

/-- What the work of a suspension gives. -/
inductive Resolved where
  | prefetched
  | deferred (resolutions : Twin Resolution)
  deriving Inhabited

namespace Suspension

/-- Where the walk goes on. -/
def continuation : Suspension → Continuation
  | component pending => .component pending
  | deferred pair data _ => .deferred pair data

/-- Run the work of a suspension. What hooks leave in the scope of an
    instance is there in the continuation, also after a failure. -/
def await (engine : Engine) (suspension : Suspension) (state : Engine.State) :
    Except RenderError Resolved × Continuation × Engine.State :=
  match suspension with
  | component pending =>
    let (result, static, dynamic) :=
      Engine.prefetchBoth pending.instances.static pending.instances.dynamic
    (result.map fun _ => .prefetched,
      .component { pending with instances := ⟨static, dynamic⟩ }, state)
  | deferred pair data asked =>
    match engine.resolveBoth asked.static asked.dynamic state with
    | .ok (static, dynamic) state =>
      (.ok (.deferred ⟨static, dynamic⟩), .deferred pair data, state)
    | .error e state => (.error e, .deferred pair data, state)

end Suspension

/-- Whether a walk goes on by itself, has a suspension that it has not handed
    out yet, or waits for one that it has handed out. -/
inductive Pause where
  | going
  | parked (suspension : Suspension)
  | waiting
  deriving Inhabited

/-- The state of a walk. Frames are kept innermost first, and `active` are
    the instances of the innermost component. -/
structure Walk where
  options : Options
  program : Program
  frames : List Frame
  active : Option (Twin Instance)
  builder : Builder
  synthesizer : Synthesizer
  rootSlot : Id
  pause : Pause
  engine : Engine.State

/-- A step of a walk, which may fail. What it did before that remains. -/
abbrev Walking := EStateM FoldError Walk

namespace Walk

variable {α : Type}

/-- A walk that has not gone anywhere yet. -/
def start (options : Options) (root : Twin View) (engine : Engine.State) : Walk :=
  let (slot, program) := Program.empty.pushHole
  { options
    program
    frames := [.group slot (.ofList [⟨root, slot, ⟨.empty, .empty⟩⟩])]
    active := none
    builder := .empty
    synthesizer := .new options.validate
    rootSlot := slot
    pause := .going
    engine }

/-- Change the program. -/
def onProgram (change : Program → Program) : Walking Unit :=
  modify fun walk => { walk with program := change walk.program }

/-- Change the program and take something from it. -/
def fromProgram (change : Program → α × Program) : Walking α :=
  modifyGet fun walk =>
    let (result, program) := change walk.program
    (result, { walk with program })

/-- Do something with the engine. -/
def onEngine (work : EngineM α) : Walking α := fun walk =>
  match work walk.engine with
  | .ok a state => .ok a { walk with engine := state }
  | .error e state => .error (.render e) { walk with engine := state }

/-- Fail if a result is a failure. -/
def ofExcept : Except RenderError α → Walking α
  | .ok a => return a
  | .error e => throw (.render e)

/-- Open a frame. -/
def pushFrame (frame : Frame) : Walking Unit :=
  modify fun walk => { walk with frames := frame :: walk.frames }

/-- What elements that the innermost component renders inherit. -/
def elementContext (walk : Walk) : Twin TagContext :=
  match walk.active with
  | none => ⟨.empty, .empty⟩
  | some instances => instances.map fun inst => .ownedBy inst.component.scopeId

end Walk

end RenderFold
