import RenderFold.Folding.Walk
import RenderFold.Html.Serializer
import RenderFold.Markup.Tag

/-!
# Comparing Nodes

Two nodes at the same place are compared by kind. If they have the same
markup whatever the data of the request, the expression that produces them
is found to be static. If they have children, a frame is opened and the
children are compared next, and if they are components, both are rendered
and their roots are compared next. Nodes that differ are no error: nothing
is found out about them, and they stay as they are.

Children are matched with the elements of the list of children in the call
that constructs the node. If there is no such list, or it does not fit, each
child gets an expression of its own that stands for nothing. What is found
out about it still counts, but no part of the call is rewritten.

## Main definitions

* `Program.correlate`, `Program.locateRoot`: Matching children and roots with
  expressions.
* `Walk.compare`: Comparing two nodes.
* `Walk.compareResolved`: Comparing what two async components resolved to.
* `Walk.enterComponent`: Rendering a component in both passes.
-/

namespace RenderFold

open Script (Id)

namespace Program

/-- Record that a node is static if both passes gave the same markup. -/
def recordText (program : Program) (slot : Id) (static dynamic : Option String) : Program :=
  match static, dynamic with
  | some static, some dynamic =>
    if static = dynamic then program.markStatic slot static else program
  | _, _ => program

/-- The expressions of the children of a node. They are the elements of the
    list of children if there are as many of these as there are children and
    each constructs a node. -/
def correlate (program : Program) (slot : Id) (count : Nat) : List Id × Program :=
  let fits (elements : List Id) : Bool :=
    elements.length == count && elements.all program.arena.isNodeCall
  match ((program.arena.childArray? slot).bind program.arena.elements?).filter fits with
  | some elements => (elements, program)
  | none => pushHoles count (program.markUnmatched slot)

/-- The expression that produces the root of a component: the one that its
    render function returns, if there is only one. -/
def locateRoot (program : Program) (function : Id) : Id × Program :=
  match program.arena.singleReturn? function with
  | some slot => (slot, program)
  | none => (program.markUnmatched function).pushHole

end Program

namespace Walk

/-- Go on with the children of a node. -/
def descend (slot : Id) (closing : String) (children : Twin (List View)) : Walking Unit := do
  let slots ← fromProgram fun program => program.correlate slot children.static.length
  let context := (← get).elementContext
  -- The children of a node are as many on both sides here.
  let views := children.static.zipWith Twin.mk children.dynamic
  pushFrame (.element slot closing (.ofList (views.zipWith (⟨·, ·, context⟩) slots)))

/-- Compare markup around children. Blanks at either end of markup without
    children do not count, and the static markup is what is kept. -/
def compareFragments (slot : Id) (opening closing : Twin String) (children : Twin (List View)) :
    Walking Unit := do
  if children.static.isEmpty && children.dynamic.isEmpty then
    let static := opening.static ++ closing.static
    let dynamic := opening.dynamic ++ closing.dynamic
    if Text.trim static = Text.trim dynamic then
      onProgram (·.markStatic slot static)
  else if children.static.length = children.dynamic.length
      && opening.static = opening.dynamic && closing.static = closing.dynamic then
    onProgram (·.setText slot opening.static)
    descend slot closing.static children

/-- Compare elements of one tag. The children are compared even if the start
    tags differ, but then the element itself has no markup that is known. -/
def compareElements (engine : Engine) (pair : Pair) (tag : String) (data : Twin NodeData)
    (children : Twin (List View)) : Walking Unit := do
  let static := engine.registry.startTag tag data.static pair.context.static
  let dynamic := engine.registry.startTag tag data.dynamic pair.context.dynamic
  match Markup.endTag? tag with
  | none => onProgram (·.recordText pair.slot static dynamic)
  | some closing =>
    match data.static.content?, data.dynamic.content? with
    | none, none =>
      if children.static.isEmpty && children.dynamic.isEmpty then
        onProgram (·.recordText pair.slot (static ++ closing) (dynamic ++ closing))
      else if children.static.length = children.dynamic.length then
        if static = dynamic then onProgram (·.setText pair.slot static)
        descend pair.slot closing children
    | some content, some other =>
      if static = dynamic && content = other then
        onProgram (·.markStatic pair.slot (static ++ content ++ closing))
    | _, _ => return

/-- Render a component in both passes and go on with the two roots. -/
def enterComponent (engine : Engine) (pending : Pending) : Walking Unit := do
  let static ← ofExcept (engine.render pending.instances.static)
  let dynamic ← ofExcept (engine.render pending.instances.dynamic)
  -- Nothing is entered unless both passes render.
  let rootSlot ← fromProgram (·.locateRoot pending.function)
  let component := pending.instances.static.component
  let around := (← get).active
  modify fun walk =>
    { walk with
      active := some pending.instances
      builder := walk.builder.enter component.name component.styles }
  pushFrame (.component ⟨pending.slot, rootSlot, pending.instances.static, pending.own, around⟩
    (.ofList [⟨⟨static, dynamic⟩, rootSlot, pending.context⟩]))

/-- Compare components. They are the same if their names are. The render
    function of the static one is copied into the program, to be rewritten
    when the component is left. -/
def compareComponents (engine : Engine) (pair : Pair) (component : Twin Component)
    (data : Twin NodeData) : Walking (Option Suspension) := do
  if component.static.name ≠ component.dynamic.name then return none
  let active := (← get).active
  let static := Instance.create component.static data.static (active.map (·.static)) .static
  let dynamic := Instance.create component.dynamic data.dynamic (active.map (·.dynamic)) .dynamic
  -- Only the static function is rewritten, so the dynamic one is not kept.
  let (own, static) ← onEngine (engine.ensureRender static)
  let (_, dynamic) ← onEngine (engine.ensureRender dynamic)
  let function ← fromProgram fun program =>
    let (function, arena) := program.arena.graft own.arena own.root
    (function, { arena, findings := program.findings.setFunction pair.slot function })
  let pending : Pending :=
    { slot := pair.slot
      function
      instances := ⟨static, dynamic⟩
      own
      context :=
        ⟨pair.context.static.nest data.static component.static.scopeId,
          pair.context.dynamic.nest data.dynamic component.dynamic.scopeId⟩ }
  if Engine.hasPrefetch static || Engine.hasPrefetch dynamic then return some (.component pending)
  enterComponent engine pending
  return none

/-- Compare what async components resolved to. If they resolved to different
    kinds of things, a comment stands for them. -/
def compareResolved (engine : Engine) (compare : Pair → Walking (Option Suspension)) (pair : Pair)
    (data : Twin NodeData) (resolutions : Twin Resolution) : Walking (Option Suspension) := do
  match resolutions.static, resolutions.dynamic with
  | .component static, .component dynamic =>
    compareComponents engine pair ⟨engine.components static, engine.components dynamic⟩ data
  | .view static, .view dynamic => compare { pair with view := ⟨static, dynamic⟩ }
  | .views static, .views dynamic =>
    if static.length = dynamic.length then
      -- One expression stands for all of the views, so each gets one of its own that
      -- no function refers to.
      let slots ← fromProgram (Program.pushHoles static.length)
      let views := static.zipWith Twin.mk dynamic
      pushFrame (.group pair.slot (.ofList (views.zipWith (⟨·, ·, pair.context⟩) slots)))
    return none
  | _, _ =>
    onProgram (·.markStatic pair.slot "<!---->")
    return none

/-- Compare two nodes, looking through at most `depth` async components that
    resolve to one another. -/
def compare (engine : Engine) : Nat → Pair → Walking (Option Suspension)
  | 0, _ => throw (.render .unfinished)
  | depth + 1, pair => do
    match pair.view.static, pair.view.dynamic with
    | .text .., .text .. =>
      onProgram (·.recordText pair.slot pair.view.static.textMarkup? pair.view.dynamic.textMarkup?)
      return none
    | .comment static, .comment dynamic =>
      if static = dynamic && (← get).options.foldComments then
        onProgram (·.markStatic pair.slot ("<!--" ++ static ++ "-->"))
      return none
    | .fragment opening closing children, .fragment opening' closing' children' =>
      compareFragments pair.slot ⟨opening, opening'⟩ ⟨closing, closing'⟩ ⟨children, children'⟩
      return none
    | .element tag data children, .element tag' data' children' =>
      if tag = tag' then
        compareElements engine pair tag ⟨data, data'⟩ ⟨children, children'⟩
      return none
    | .component id data, .component id' data' =>
      compareComponents engine pair ⟨engine.components id, engine.components id'⟩ ⟨data, data'⟩
    | .deferred id data, .deferred id' data' =>
      -- Both are asked before either is waited for.
      let static ← onEngine (Engine.ask id)
      let dynamic ← onEngine (Engine.ask id')
      match static, dynamic with
      | .answered static, .answered dynamic =>
        compareResolved engine (compare engine depth) pair ⟨data, data'⟩ ⟨static, dynamic⟩
      | _, _ => return some (.deferred pair ⟨data, data'⟩ ⟨static, dynamic⟩)
    | _, _ => return none

/-- How many async components may resolve to one another. Writing them takes
    a step for each. -/
def maxChain : Nat := Serializer.maxSteps

end Walk

end RenderFold
