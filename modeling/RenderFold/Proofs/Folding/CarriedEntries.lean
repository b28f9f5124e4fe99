import RenderFold.Proofs.Component.Prefetching
import RenderFold.Proofs.Folding.Carried

/-!
# Entries That Components Are Written With

An entry tells what function a component is rendered with. The hooks of the
component do not depend on that, so what counts is the node that the function
renders in the instance they leave behind.

## Theorems

* `Engine.rendering?_replaced`: What a component renders with another function.
* `Stands.of_literal`, `Stands.of_own`, `Stands.of_render`: A component that has
  become a literal, one that keeps its function, and one that renders another
  node.
-/

namespace RenderFold

variable {engine : Engine} {functions : Component → Option RenderFunction}
  {cached : FactoryId → Option Resolution} {pass : Pass} {owner : Option Instance}
  {context : TagContext} {use : ComponentId} {component : Component} {data : NodeData}
  {inst : Instance} {view root : View} {html : String}

/-- The hooks of an instance do not depend on its render function. -/
theorem Engine.prefetch_render (inst : Instance) (render : Option RenderFunction) :
    (prefetch { inst with render }).value =
      (prefetch inst).value.map fun inst => { inst with render } := by
  cases hall : (Delayed.joinAll (inst.component.prefetch.map (· inst.request))).value with
  | ok results =>
      rw [@prefetch_value_of_ok { inst with render } _ hall, prefetch_value_of_ok hall,
        Instance.foldl_merge, Instance.foldl_merge]
      rfl
  | error message =>
      rw [@prefetch_value_of_error { inst with render } _ hall,
        prefetch_value_of_error hall]
      rfl

/-- What a component renders with another function, at another place. -/
theorem Engine.rendering?_replaced {function : RenderFunction}
    (h : engine.rendering? functions pass owner component data = some (inst, root))
    (hview : engine.render { inst with render := some function } = .ok view) (place : Option Nat) :
    engine.rendering? (fun _ => some function) pass owner component
      { data with treeSlot := place } = some ({ inst with render := some function }, view) := by
  obtain ⟨own, -, hprefetch, -⟩ := rendering?_eq_some_iff.mp h
  refine rendering?_eq_some_iff.mpr ⟨function, rfl, ?_, hview⟩
  exact (prefetch_render { Instance.create component data owner pass with render := some own }
    (some function)).trans (congrArg (Except.map _) hprefetch)

/-- A component amounts to what its root does. -/
theorem Amounts.of_component
    (hroot : engine.rendering? functions pass owner (engine.components use) data =
      some (inst, root))
    (h : Amounts engine functions cached pass owner context [.component use data] html) :
    Amounts engine functions cached pass (some inst)
      (context.nest data (engine.components use).scopeId) [root] html := by
  obtain ⟨answers, steps, hwritten, hanswers⟩ := h
  cases hwritten with
  | component hroot' hinner hrest =>
      cases hroot.symm.trans hroot'
      cases hrest
      rw [List.append_nil] at hanswers
      rw [String.append_empty]
      exact ⟨_, _, hinner, hanswers⟩

/-- What is written does not depend on the render function of the owner. -/
theorem Serves.same {entry : Option FoldedTree} {other : Option Instance} {views : List View}
    (h : Serves engine functions entry owner context views html)
    (hsame : Instance.Same other owner) : Serves engine functions entry other context views html :=
  fun tree outer inst memory hother hmemory =>
    h tree outer inst memory (Eq.trans hother hsame) hmemory

/-- An instance has the function that it was made with. -/
theorem Engine.render_of_rendering? {own : RenderFunction} (hown : functions component = some own)
    (h : engine.rendering? functions pass owner component data = some (inst, root)) :
    inst.render = some own ∧ engine.render inst = .ok root := by
  obtain ⟨function, hfunction, hprefetch, hrender⟩ := rendering?_eq_some_iff.mp h
  cases hown.symm.trans hfunction
  have hsame := prefetch_render
    { Instance.create component data owner pass with render := some own } (some own)
  rw [hprefetch] at hsame
  have hinst : inst = { inst with render := some own } := Except.ok.inj hsame
  exact ⟨congrArg Instance.render hinst, hrender⟩

namespace Stands

variable {child : FoldedTree}

/-- A component that has become a literal. -/
theorem of_literal (haccepts : ∀ function, engine.refuses function = none)
    (hname : child.component = (engine.components use).name)
    (hrender : engine.rendering? functions .dynamic owner (engine.components use) data =
      some (inst, root)) (hfunction : child.function.tree = .literal html) :
    Stands engine functions owner context use data child html where
  name := hname
  serves _ place := ⟨_, _, Engine.rendering?_replaced hrender
    (Engine.render_literal _ (haccepts _) rfl hfunction) place, .literal html⟩

/-- A component that renders another node, which is written as its own would be. -/
theorem of_render (hname : child.component = (engine.components use).name)
    (hrender : engine.rendering? functions .dynamic owner (engine.components use) data =
      some (inst, root))
    (hserves : child.Small → ∃ view,
      engine.render { inst with render := some child.function } = .ok view ∧
      Serves engine functions (some child) (some inst)
        (context.nest data (engine.components use).scopeId) [view] html) :
    Stands engine functions owner context use data child html where
  name := hname
  serves hsmall place := by
    obtain ⟨view, hview, hserves⟩ := hserves hsmall
    exact ⟨_, view, Engine.rendering?_replaced hrender hview place, hserves.same rfl⟩

/-- A component that keeps its function. -/
theorem of_own {own : RenderFunction} (hname : child.component = (engine.components use).name)
    (hown : functions (engine.components use) = some own)
    (hrender : engine.rendering? functions .dynamic owner (engine.components use) data =
      some (inst, root)) (hfunction : child.function = own)
    (hserves : ∀ entry, Serves engine functions entry (some inst)
      (context.nest data (engine.components use).scopeId) [root] html) :
    Stands engine functions owner context use data child html := by
  obtain ⟨hinst, hroot⟩ := Engine.render_of_rendering? hown hrender
  refine .of_render hname hrender fun _ => ⟨root, ?_, hserves _⟩
  rw [hfunction, ← hinst]
  exact hroot

end Stands

end RenderFold
