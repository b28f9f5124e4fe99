import RenderFold.Proofs.Html.Written

/-!
# Quiet Trees

A tree is quiet if writing it never has to wait: no component in it has
hooks, and all async components have resolved. What is in a tree is what
writing it meets, so an element that holds markup of its own in place of its
children has none of them in it.

In a quiet tree both passes are the same. The instances only differ in the
pass that they belong to, which nothing but hooks can tell.

## Main definitions

* `Below`: The nodes of a tree, each with the instance that it comes from.
* `Quiet`: Trees that never wait.
* `Engine.Remembers`: What an engine knows about components.

## Theorems

* `Written.static_pass`: What a quiet tree amounts to in the static pass.
-/

namespace RenderFold

/-- The views that are written inside a view. -/
def View.inside : View → List View
  | .fragment _ _ children => children
  | .element tag data children =>
    if (Markup.endTag? tag).isSome && data.content?.isNone then children else []
  | _ => []

/-- The same instance in the static pass. -/
def Instance.inStatic (inst : Instance) : Instance := { inst with pass := .static }

section Definitions

variable (engine : Engine) (functions : Component → Option RenderFunction)
  (cached : FactoryId → Option Resolution) (root : View)

/-- The nodes of the tree below a root, each with the instance whose render
    function produced it. -/
inductive Below : Option Instance → View → Prop where
  | root : Below none root
  | inside {owner view child} (h : Below owner view) (hchild : child ∈ view.inside) :
      Below owner child
  | component {owner id data inst view} (h : Below owner (.component id data))
      (hroot : engine.rendering? functions .dynamic owner (engine.components id) data
        = some (inst, view)) : Below (some inst) view
  | deferredComponent {owner factory data id inst view} (h : Below owner (.deferred factory data))
      (hcached : cached factory = some (.component id))
      (hroot : engine.rendering? functions .dynamic owner (engine.components id) data
        = some (inst, view)) : Below (some inst) view
  | deferredView {owner factory data view} (h : Below owner (.deferred factory data))
      (hcached : cached factory = some (.view view)) : Below owner view
  | deferredViews {owner factory data views view} (h : Below owner (.deferred factory data))
      (hcached : cached factory = some (.views views)) (hview : view ∈ views) : Below owner view

/-- No component of a tree has hooks, and its async components have all
    resolved. -/
structure Quiet : Prop where
  component : ∀ owner id data, Below engine functions cached root owner (.component id data) →
    (engine.components id).prefetch = []
  deferred : ∀ owner factory data,
    Below engine functions cached root owner (.deferred factory data) →
    ∃ resolution, cached factory = some resolution ∧
      ∀ id, resolution = .component id → (engine.components id).prefetch = []

end Definitions

/-- Answers that are what async components have resolved to. -/
def Answered (cached : FactoryId → Option Resolution) (answers : List Answer) : Prop :=
  ∀ answer ∈ answers, cached answer.factory = answer.resolution

variable {engine : Engine} {functions : Component → Option RenderFunction}
  {cached : FactoryId → Option Resolution} {root : View}

namespace Answered

variable {answers answers' : List Answer} {answer : Answer}

theorem append_iff : Answered cached (answers ++ answers') ↔
    Answered cached answers ∧ Answered cached answers' :=
  List.forall_mem_append

theorem cons_iff : Answered cached (answer :: answers) ↔
    cached answer.factory = answer.resolution ∧ Answered cached answers :=
  List.forall_mem_cons

end Answered

/-- What an engine remembers: the render functions of all components, and what
    async components have resolved to. -/
structure Engine.Remembers (engine : Engine) (functions : Component → Option RenderFunction)
    (cached : FactoryId → Option Resolution) (state : State) : Prop where
  functions : engine.function? state = functions
  cached : ∀ id, (state.factories id).cached = cached id

theorem Engine.Remembers.kept {state state' : State} (h : engine.Remembers functions cached state)
    (hkept : Kept engine state state') : engine.Remembers functions cached state' :=
  ⟨hkept.functions.trans h.functions, fun id => by rw [hkept.factories]; exact h.cached id⟩

/-- What a component without hooks renders: its function is run in the scope
    of the node. -/
theorem Engine.rendering?_of_nil {component : Component} (h : component.prefetch = []) {pass : Pass}
    {owner : Option Instance} {data : NodeData} {inst : Instance} {view : View} :
    engine.rendering? functions pass owner component data = some (inst, view) ↔
      ∃ function, functions component = some function ∧
        inst = { Instance.create component data owner pass with render := some function } ∧
        engine.render inst = .ok view := by
  -- With no hooks to run, only the render function itself can fail.
  unfold Engine.rendering?
  cases hfunction : functions component with
  | none => simp only [Option.bind_eq_bind, Option.bind_none, reduceCtorEq, false_and, exists_false]
  | some function =>
      have hprefetch : (Engine.prefetch { Instance.create component data owner pass with
          render := some function }).value = .ok _ := Engine.prefetch_of_nil h
      simp only [Option.bind_eq_bind, Option.bind_some, hprefetch, Except.toOption]
      cases hrender : engine.render
          { Instance.create component data owner pass with render := some function } with
      | error e =>
          simp only [Option.bind_none, reduceCtorEq, false_iff, not_exists, not_and]
          rintro other hother rfl
          cases hother
          simp only [hrender, reduceCtorEq, not_false_eq_true]
      | ok other =>
          simp only [Option.bind_some, Option.pure_def, Option.some.injEq, Prod.mk.injEq]
          constructor
          · rintro ⟨rfl, rfl⟩
            exact ⟨function, rfl, rfl, hrender⟩
          · rintro ⟨_, rfl, rfl, hother⟩
            exact ⟨rfl, Except.ok.inj (hrender.symm.trans hother)⟩

/-- Without hooks the static pass renders what the dynamic one does. -/
theorem Engine.rendering?_static {component : Component} (h : component.prefetch = [])
    {owner : Option Instance} {data : NodeData} {inst : Instance} {view : View}
    (hroot : engine.rendering? functions .dynamic owner component data = some (inst, view)) :
    engine.rendering? functions .static (owner.map Instance.inStatic) component data =
      some (inst.inStatic, view) := by
  obtain ⟨function, hfunction, rfl, hrender⟩ := (Engine.rendering?_of_nil h).mp hroot
  refine (Engine.rendering?_of_nil h).mpr ⟨function, hfunction, ?_, hrender⟩
  cases owner <;> rfl

theorem TagContext.within_inStatic (owner : Option Instance) :
    TagContext.within (owner.map Instance.inStatic) = .within owner := by
  cases owner <;> rfl

/-- A quiet tree amounts to the same in the static pass. -/
theorem Written.static_pass (hquiet : Quiet engine functions cached root)
    {childless : String → String} {owner : Option Instance} {context : TagContext}
    {views : List View} {answers : List Answer} {html : String} {steps : Nat}
    (h : Written engine functions .dynamic childless owner context views answers html steps)
    (hbelow : ∀ view ∈ views, Below engine functions cached root owner view)
    (hanswers : Answered cached answers) :
    Written engine functions .static childless (owner.map Instance.inStatic) context views answers
      html steps := by
  -- By induction on how the tree is written. The pass shows in the instances only,
  -- and what they render does not depend on it.
  induction h with
  | nil => exact .nil
  | text hmarkup hrest ih =>
      exact .text hmarkup (ih (List.forall_mem_cons.mp hbelow).2 hanswers)
  | comment hrest ih => exact .comment (ih (List.forall_mem_cons.mp hbelow).2 hanswers)
  | fragment hchildren hrest ihchildren ih =>
      obtain ⟨hview, hbelow⟩ := List.forall_mem_cons.mp hbelow
      obtain ⟨hinner, hanswers⟩ := Answered.append_iff.mp hanswers
      have hchildren' := ihchildren (fun child hchild => hview.inside hchild) hinner
      rw [← TagContext.within_inStatic] at hchildren'
      exact .fragment hchildren' (ih hbelow hanswers)
  | void hend hstart hrest ih =>
      exact .void hend hstart (ih (List.forall_mem_cons.mp hbelow).2 hanswers)
  | content hend hstart hcontent hrest ih =>
      exact .content hend hstart hcontent (ih (List.forall_mem_cons.mp hbelow).2 hanswers)
  | element hend hstart hcontent hchildren hrest ihchildren ih =>
      obtain ⟨hview, hbelow⟩ := List.forall_mem_cons.mp hbelow
      obtain ⟨hinner, hanswers⟩ := Answered.append_iff.mp hanswers
      have hinside : ∀ child ∈ _, Below engine functions cached root _ child :=
        fun child hchild => hview.inside (by simpa [View.inside, hend, hcontent] using hchild)
      have hchildren' := ihchildren hinside hinner
      rw [← TagContext.within_inStatic] at hchildren'
      exact .element hend hstart hcontent hchildren' (ih hbelow hanswers)
  | component hroot hinner hrest ihinner ih =>
      obtain ⟨hview, hbelow⟩ := List.forall_mem_cons.mp hbelow
      obtain ⟨hinner, hanswers⟩ := Answered.append_iff.mp hanswers
      have hinner' := ihinner (List.forall_mem_singleton.mpr (hview.component hroot)) hinner
      exact .component (Engine.rendering?_static (hquiet.component _ _ _ hview) hroot) hinner'
        (ih hbelow hanswers)
  | deferredComponent hroot hinner hrest ihinner ih =>
      obtain ⟨hview, hbelow⟩ := List.forall_mem_cons.mp hbelow
      obtain ⟨hanswer, hanswers⟩ := Answered.cons_iff.mp hanswers
      obtain ⟨hinner, hanswers⟩ := Answered.append_iff.mp hanswers
      obtain ⟨resolution, hresolved, hhooks⟩ := hquiet.deferred _ _ _ hview
      have hnone := hhooks _ (Option.some.inj (hresolved.symm.trans hanswer))
      have hinner' := ihinner
        (List.forall_mem_singleton.mpr (hview.deferredComponent hanswer hroot)) hinner
      exact .deferredComponent (Engine.rendering?_static hnone hroot) hinner' (ih hbelow hanswers)
  | deferredView hinner hrest ihinner ih =>
      obtain ⟨hview, hbelow⟩ := List.forall_mem_cons.mp hbelow
      obtain ⟨hanswer, hanswers⟩ := Answered.cons_iff.mp hanswers
      obtain ⟨hinner, hanswers⟩ := Answered.append_iff.mp hanswers
      exact .deferredView
        (ihinner (List.forall_mem_singleton.mpr (hview.deferredView hanswer)) hinner)
        (ih hbelow hanswers)
  | deferredViews hinner hrest ihinner ih =>
      obtain ⟨hview, hbelow⟩ := List.forall_mem_cons.mp hbelow
      obtain ⟨hanswer, hanswers⟩ := Answered.cons_iff.mp hanswers
      obtain ⟨hinner, hanswers⟩ := Answered.append_iff.mp hanswers
      exact .deferredViews (ihinner (fun view hview' => hview.deferredViews hanswer hview') hinner)
        (ih hbelow hanswers)
  | differing hrest ih =>
      obtain ⟨hview, hbelow⟩ := List.forall_mem_cons.mp hbelow
      obtain ⟨hanswer, hanswers⟩ := Answered.cons_iff.mp hanswers
      exact .differing (ih hbelow hanswers)

end RenderFold
