import Mathlib.Data.List.Infix
import RenderFold.Folding.FoldedTree
import RenderFold.Proofs.Html.Renditions

/-!
# Entries Along a Path

A folded tree that serves as a plan keeps the entries of the components that
are open, with a gap for each that has none. What it answers does not depend
on how it came to that state. The components that are open form a path, and
the entry of the innermost one is found by following the path through the
tree: the root has to have the name of the outermost component, and from there
on each component names a place among the children of the entry before it, at
which there has to be an entry with its name.

So a path that leads nowhere leads nowhere however it goes on, which is why a
component below one without an entry never gets another function.

## Main definitions

* `Plan.Call.path`: The components that are open after a call.
* `FoldedTree.find?`: The entry at the end of a path.
* `FoldedTree.around`: The entries along a path.

## Theorems

* `FoldedTree.entry?_around`: The entry that the plan looks up.
* `FoldedTree.around_hear`, `FoldedTree.around_calls`: The state of the plan
  after a call, and after any calls.
* `FoldedTree.plan_finds`: The answers of the plan.
-/

namespace RenderFold

/-- The components that are open after a call, outermost first, each with the
    data of its node. Leaving when none is open changes nothing. -/
def Plan.Call.path (path : List (Component × NodeData)) :
    Plan.Call → List (Component × NodeData)
  | .enter component data => path ++ [(component, data)]
  | .leave => path.dropLast

namespace FoldedTree

/-- The entry, if it is one for components of that name. -/
def named? (entry : FoldedTree) (component : Component) : Option FoldedTree :=
  if entry.component = component.name then some entry else none

/-- The entry at the end of a path that begins below this one. -/
def below? (entry : FoldedTree) : List (Component × NodeData) → Option FoldedTree
  | [] => some entry
  | (component, data) :: inner => do
    let place ← data.treeSlot
    let child ← entry.children[place]?
    let child ← child.named? component
    child.below? inner

/-- The entry at the end of a path that begins at the root. -/
def find? (tree : FoldedTree) : List (Component × NodeData) → Option FoldedTree
  | [] => none
  | (component, _) :: inner => do
    let root ← tree.named? component
    root.below? inner

/-- The entries along a path, innermost first. -/
def around (tree : FoldedTree) (path : List (Component × NodeData)) : List (Option FoldedTree) :=
  (path.inits.tail.map tree.find?).reverse

variable {tree : FoldedTree} {outer inner path : List (Component × NodeData)}
  {component : Component} {data : NodeData}

theorem bind_named? (entry : Option FoldedTree) :
    (entry.bind fun entry => entry.named? component) =
      entry.filter fun entry => entry.component == component.name := by
  cases entry with
  | none => rfl
  | some entry =>
      rw [Option.bind_some, Option.filter_some, named?]
      simp only [beq_iff_eq]

theorem below?_append (entry : FoldedTree) (outer inner : List (Component × NodeData)) :
    entry.below? (outer ++ inner) = (entry.below? outer).bind fun entry => entry.below? inner := by
  induction outer generalizing entry with
  | nil => rfl
  | cons step outer ih =>
      obtain ⟨component, data⟩ := step
      simp only [List.cons_append, below?, ih, Option.bind_eq_bind, Option.bind_assoc]

/-- A path is followed in two parts. -/
theorem find?_append (h : outer ≠ []) :
    tree.find? (outer ++ inner) = (tree.find? outer).bind fun entry => entry.below? inner := by
  cases outer with
  | nil => exact absurd rfl h
  | cons step outer =>
      simp only [List.cons_append, find?, below?_append, Option.bind_eq_bind, Option.bind_assoc]

theorem around_concat (step : Component × NodeData) :
    tree.around (path ++ [step]) = tree.find? (path ++ [step]) :: tree.around path := by
  have hinits : (path ++ [step]).inits.tail = path.inits.tail ++ [path ++ [step]] := by
    rw [List.inits_append]
    cases path <;> rfl
  rw [around, hinits, List.map_append, List.reverse_append]
  rfl

/-- The plan finds the entry at the end of the path that is open. -/
theorem entry?_around (tree : FoldedTree) (path : List (Component × NodeData))
    (component : Component) (data : NodeData) :
    tree.entry? component data (tree.around path) = tree.find? (path ++ [(component, data)]) := by
  induction path using List.reverseRecOn with
  | nil =>
      change (some tree).filter (fun entry => entry.component == component.name) = _
      rw [← bind_named?]
      exact (Option.bind_fun_some _).symm
  | append_singleton outer step _ =>
      rw [around_concat, find?_append (List.concat_ne_nil step outer)]
      cases tree.find? (outer ++ [step]) with
      | none => rfl
      | some parent =>
          change (data.treeSlot.bind fun place => parent.children[place]?).filter
            (fun entry => entry.component == component.name) = parent.below? [(component, data)]
          rw [← bind_named?, Option.bind_assoc]
          simp only [below?, Option.bind_eq_bind, Option.bind_fun_some]

/-- One call keeps the entries along the path that is open. -/
theorem around_hear (tree : FoldedTree) (path : List (Component × NodeData)) (call : Plan.Call) :
    tree.plan.hear (tree.around path) call = tree.around (call.path path) := by
  cases call with
  | enter component data =>
      rw [Plan.Call.path, around_concat, ← entry?_around]
      rfl
  | leave =>
      change (tree.around path).tail = tree.around path.dropLast
      induction path using List.reverseRecOn with
      | nil => rfl
      | append_singleton path step _ => rw [around_concat, List.dropLast_concat, List.tail_cons]

/-- After any calls, the plan has the entries along the path that is open. -/
theorem around_calls (tree : FoldedTree) (calls : List Plan.Call) :
    calls.foldl tree.plan.hear [] = tree.around (calls.foldl Plan.Call.path []) := by
  induction calls using List.reverseRecOn with
  | nil => rfl
  | append_singleton calls call ih =>
      rw [List.foldl_append, List.foldl_append, ih]
      exact around_hear tree _ call

/-- Whatever the plan was told before, the function that it gives a component
    that is entered is that of the entry at the end of the path of open
    components. There is one only if there is an entry for each component on
    that path, so below a component without an entry there is none. -/
theorem plan_finds (tree : FoldedTree) (calls : List Plan.Call) (component : Component)
    (data : NodeData) :
    let path := calls.foldl Plan.Call.path [] ++ [(component, data)]
    let answer := (tree.plan.enter component data (calls.foldl tree.plan.hear [])).1
    answer = (tree.find? path).map (·.function) ∧
      (answer.isSome = true ↔
        ∀ outer, outer <+: path → outer ≠ [] → (tree.find? outer).isSome = true) := by
  intro path answer
  have hanswer : answer = (tree.find? path).map (·.function) := by
    change (tree.entry? component data (calls.foldl tree.plan.hear [])).map (·.function) = _
    rw [around_calls, entry?_around]
  refine ⟨hanswer, ?_⟩
  rw [hanswer, Option.isSome_map]
  constructor
  · rintro hsome outer ⟨inner, hpath⟩ hne
    rw [← hpath, find?_append hne, Option.isSome_bind] at hsome
    exact Option.isSome_of_any hsome
  · intro hall
    exact hall path (List.prefix_refl path) (List.concat_ne_nil _ _)

end FoldedTree

end RenderFold
