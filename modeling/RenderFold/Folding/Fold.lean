import RenderFold.Folding.Comparison

/-!
# Folding a Component Tree

A walk takes the next pair of the innermost frame and compares it. When the
frame has none left it is closed, and what was found out about its children
is folded into its node. A component that is left gets a render function: a
literal if its root is static, its rewritten function if that works, and the
function it had otherwise.

The walk can be driven by hand with `advance` and `resume`; `Engine.fold`
drives one to its end.

## Main definitions

* `Walk.leaveComponent`, `Walk.finish`: Closing a frame.
* `Walk.advance`, `Walk.resume`: Driving a walk.
* `Walk.result`: What a finished walk produced.
* `Engine.fold`, `Engine.foldComponent`: Folding from start to end.
-/

namespace RenderFold

namespace Walk

/-- Close the entry of a component. -/
def closeEntry (slot : Script.Id) (function : RenderFunction) (isStatic : Bool)
    (stays : Script.Id → Bool) : Walking Unit :=
  modify fun walk =>
    { walk with builder := walk.builder.close slot function isStatic stays }

/-- Do something with the synthesizer. -/
def onSynthesizer {α : Type} (work : Synthesizer → α × Synthesizer) : Walking α :=
  modifyGet fun walk =>
    let (result, synthesizer) := work walk.synthesizer
    (result, { walk with synthesizer })

/-- Leave a component that is static: it becomes a literal, and so does the
    expression that uses it. -/
def leaveStatic (boundary : Boundary) (text : String) : Walking Unit := do
  match ← onSynthesizer (·.literal text) with
  | .error e => throw (.render (.parse e))
  | .ok function =>
    onProgram (·.foldToLiteral boundary.slot text)
    -- A static component needs none of the components below it any more.
    let hoist := (← get).options.hoistStyles
    closeEntry boundary.slot function true fun _ => !hoist

/-- Leave a component with its rewritten function. The calls that use the
    components below are numbered first. A function that does not work is
    dropped, and then the component keeps its own and all its children. -/
def leaveRewritten (engine : Engine) (boundary : Boundary) (function : Script.Id) :
    Walking Unit := do
  let walk ← get
  let hoist := walk.options.hoistStyles
  let slots := walk.builder.childSlots
  let survivors := Program.survivors walk.program.arena function slots
  -- The numbers have to be there before the function is printed.
  onProgram fun program =>
    { program with arena := Program.placeAll survivors (!hoist) program.arena 0 slots }
  let arena := (← get).program.arena
  match ← onSynthesizer (·.synthesize engine arena function boundary.inst) with
  | some rewritten =>
    closeEntry boundary.slot rewritten false fun slot => !hoist || survivors.contains slot
  | none => closeEntry boundary.slot boundary.own false fun _ => true

/-- Leave a component. -/
def leaveComponent (engine : Engine) (boundary : Boundary) : Walking Unit := do
  modify fun walk => { walk with active := boundary.around }
  let findings := (← get).program.findings
  match findings.literal? boundary.rootSlot with
  | some text => leaveStatic boundary text
  | none =>
    match findings.function? boundary.slot with
    | none => closeEntry boundary.slot boundary.own false fun _ => true
    | some function =>
      if findings.isUnmatched function then
        closeEntry boundary.slot boundary.own false fun _ => true
      else leaveRewritten engine boundary function

/-- Fold what was found out about the children of a frame. -/
def finish (engine : Engine) : Frame → Walking Unit
  | .element slot closing pairs => onProgram (·.foldLevel slot closing pairs.slots)
  | .group slot pairs => onProgram (·.foldGroup slot pairs.slots)
  | .component boundary _ => leaveComponent engine boundary

/-- How far a walk has come: it is over, or it waits for something. -/
inductive Progress where
  | done
  | suspended (suspension : Suspension)
  deriving Inhabited

/-- Go on for at most `steps` steps, until the walk is over or has to wait. -/
def advanceFor (engine : Engine) : Nat → Walking Progress
  | 0 => throw (.render .unfinished)
  | steps + 1 => do
    match (← get).frames with
    | [] => return .done
    | frame :: rest =>
      match frame.pairs.next? with
      | some (pair, left) =>
        modify fun walk => { walk with frames := frame.withPairs left :: rest }
        -- The pair is taken from the frame first, so it is compared only once.
        match ← compare engine maxChain pair with
        | some suspension =>
          modify fun walk => { walk with pause := .waiting }
          return .suspended suspension
        | none => advanceFor engine steps
      | none =>
        modify fun walk => { walk with frames := rest }
        finish engine frame
        advanceFor engine steps

/-- How many steps a walk may take without a pause, and how many pauses. A
    walk takes at most twice as many steps as writing what it walks through. -/
def maxSteps : Nat := 2 * Serializer.maxSteps

/-- Go on until the walk is over or has to wait. A suspension that came up
    when an earlier one was resumed is handed out first. -/
def advance (engine : Engine) : Walking Progress := do
  match (← get).pause with
  | .parked suspension =>
    modify fun walk => { walk with pause := .waiting }
    return .suspended suspension
  | .waiting => throw .notResumed
  | .going => advanceFor engine maxSteps

/-- Go on at a continuation with the value that the walk waited for. The walk
    no longer waits after that, even if the value does not fit. -/
def resume (engine : Engine) (continuation : Continuation) (resolved : Resolved) :
    Walking Unit := do
  match (← get).pause with
  | .waiting =>
    modify fun walk => { walk with pause := .going }
    match continuation, resolved with
    | .component pending, .prefetched => enterComponent engine pending
    -- A view that this comes upon may have to wait in turn.
    | .deferred pair data, .deferred resolutions =>
      match ← compareResolved engine (compare engine maxChain) pair data resolutions with
      | some suspension => modify fun walk => { walk with pause := .parked suspension }
      | none => return
    | _, _ => throw .resumeMismatch
  | _ => throw .resumeMismatch

/-- What a finished walk produced. -/
def result (walk : Walk) : Except FoldError FoldedTree :=
  match walk.pause, walk.frames with
  | .going, [] =>
    match walk.builder.root with
    | some tree => .ok tree
    | none => .error .rootNotComponent
  | _, _ => .error .incomplete

/-- Run the work of a suspension as part of the walk. -/
def await (engine : Engine) (suspension : Suspension) :
    Walking (Except RenderError Resolved × Continuation) :=
  modifyGet fun walk =>
    let (result, continuation, state) := suspension.await engine walk.engine
    ((result, continuation), { walk with engine := state })

/-- Drive a walk to its end, through at most `pauses` pauses. -/
def runFor (engine : Engine) : Nat → Walking FoldedTree
  | 0 => throw (.render .unfinished)
  | pauses + 1 => do
    match ← advance engine with
    | .done =>
      match (← get).result with
      | .ok tree => return tree
      | .error e => throw e
    | .suspended suspension =>
      let (outcome, continuation) ← await engine suspension
      let resolved ← ofExcept outcome
      resume engine continuation resolved
      runFor engine pauses

/-- Drive a walk to its end. -/
def run (engine : Engine) : Walking FoldedTree := runFor engine maxSteps

end Walk

namespace Engine

/-- Fold the component tree below two roots, which should be uses of one
    component in the two passes. The engine's state is left behind as the
    folding leaves it. -/
def fold (engine : Engine) (options : Options) (root : Twin View) (state : Engine.State) :
    Except FoldError FoldedTree × Engine.State :=
  match Walk.run engine (.start options root state) with
  | .ok tree walk => (.ok tree, walk.engine)
  | .error e walk => (.error e, walk.engine)

/-- Fold a component tree from its root component, with the props of a
    request in the dynamic pass and without any in the static one. -/
def foldComponent (engine : Engine) (options : Options) (id : ComponentId) (props : Value)
    (state : Engine.State) : Except FoldError FoldedTree × Engine.State :=
  engine.fold options ⟨.component id .empty, .component id (.withProps props)⟩ state

end Engine

end RenderFold
