import RenderFold.Folding.FoldedTree
import RenderFold.Proofs.Html.Amounts
import RenderFold.Proofs.Html.Serialized

/-!
# Markup Under an Entry

What views are written as while a folded tree serves as the plan. Of all the
entries that are open only the innermost one counts, since a component below it
gets one of its children or none. So what views are written as is told by that
entry alone, whatever tree it is from and whatever is open around it.

A view that names no place is written under any entry as it is without a plan.

## Main definitions

* `FoldedTree.childFor?`: The entry of a component below an entry.
* `Serves`: The markup of views under an entry.

## Theorems

* `Serves.component`: A component is written with the function of its entry.
* `Written.serves`: Views that name no place.
* `Engine.html_of_serves`: The markup of a component that has the root entry.
-/

namespace RenderFold

open Serializer (Rendition Memory)

/-- The entry that a component gets below an entry, or below a component that
    has none. -/
def FoldedTree.childFor? (entry : Option FoldedTree) (component : Component) (data : NodeData) :
    Option FoldedTree :=
  (entry.bind fun parent => data.treeSlot.bind fun place => parent.children[place]?).filter
    fun child => child.component == component.name

theorem FoldedTree.entry?_cons (tree : FoldedTree) (entry : Option FoldedTree)
    (outer : List (Option FoldedTree)) (component : Component) (data : NodeData) :
    tree.entry? component data (entry :: outer) = childFor? entry component data := by
  cases entry <;> rfl

/-- The instances are of the same component, or there is none. What is below
    them cannot tell them apart. -/
def Instance.Same (inst other : Option Instance) : Prop :=
  inst.map (·.component) = other.map (·.component)

theorem Instance.Same.within {inst other : Option Instance} (h : Same inst other) :
    TagContext.within inst = .within other := by
  have hscope : ∀ inst : Option Instance,
      inst.bind (·.component.scopeId) = (inst.map (·.component)).bind (·.scopeId) := by
    rintro (_ | inst) <;> rfl
  rw [TagContext.within, TagContext.within, hscope, hscope, h]

theorem Instance.Same.create {inst other : Option Instance} (h : Same inst other)
    (component : Component) (data : NodeData) (pass : Pass) :
    Instance.create component data inst pass = .create component data other pass := by
  have hname : ∀ inst : Option Instance,
      inst.map (·.component.name) = (inst.map (·.component)).map (·.name) := by
    rintro (_ | inst) <;> rfl
  rw [Instance.create, Instance.create, hname, hname, h]

/-- The markup of views that the render function of `owner` produced, while
    `entry` is the innermost entry that is open. -/
def Serves (engine : Engine) (functions : Component → Option RenderFunction)
    (entry : Option FoldedTree) (owner : Option Instance) (context : TagContext)
    (views : List View) (html : String) : Prop :=
  ∀ (tree : FoldedTree) (outer : List (Option FoldedTree)) (inst : Option Instance)
    (memory : Engine.State), Instance.Same inst owner → engine.function? memory = functions →
    ∃ visits steps after, Rendition engine tree.plan inst context views ⟨entry :: outer, memory⟩
        html visits steps ⟨entry :: outer, after⟩ ∧ engine.function? after = functions

namespace Serves

variable {engine : Engine} {functions : Component → Option RenderFunction}
  {entry : Option FoldedTree} {owner : Option Instance} {context : TagContext}
  {views rest : List View} {view : View} {html later closing : String} {data : NodeData}

theorem nil : Serves engine functions entry owner context [] "" :=
  fun _ _ _ memory _ hfunctions => ⟨[], 0, memory, .nil, hfunctions⟩

theorem cons (h : Serves engine functions entry owner context [view] html)
    (hrest : Serves engine functions entry owner context rest later) :
    Serves engine functions entry owner context (view :: rest) (html ++ later) := by
  intro tree outer inst memory hsame hfunctions
  obtain ⟨_, _, between, hview, hbetween⟩ := h tree outer inst memory hsame hfunctions
  obtain ⟨_, _, after, hviews, hafter⟩ := hrest tree outer inst between hsame hbetween
  exact ⟨_, _, after, .cons hview hviews, hafter⟩

theorem text {content markup : String} {raw : Bool}
    (hmarkup : (View.text content raw).textMarkup? = some markup) :
    Serves engine functions entry owner context [.text content raw] markup :=
  fun _ _ _ memory _ hfunctions => ⟨[], 1, memory, .text hmarkup, hfunctions⟩

theorem comment (content : String) : Serves engine functions entry owner context [.comment content]
    ("<!--" ++ content ++ "-->") :=
  fun _ _ _ memory _ hfunctions => ⟨[], 1, memory, .comment, hfunctions⟩

/-- A node is written around its children. -/
theorem enclosing {content : String} (hcloses : view.ClosesWith closing)
    (h : Serves engine functions entry owner (.within owner) view.children content) :
    Serves engine functions entry owner context [view]
      (view.opening engine context ++ content ++ closing) := by
  intro tree outer inst memory hsame hfunctions
  obtain ⟨visits, steps, after, hchildren, hafter⟩ := h tree outer inst memory hsame hfunctions
  rw [← hsame.within] at hchildren
  cases view with
  | element tag data children =>
      exact ⟨visits, _, after, .element hcloses.1 hcloses.2 hchildren, hafter⟩
  | fragment opening other children =>
      cases hcloses
      exact ⟨visits, _, after, .fragment hchildren, hafter⟩
  | _ => cases hcloses

/-- Markup without children. -/
theorem literal (text : String) :
    Serves engine functions entry owner context [.fragment text "" []] text := by
  have hcloses : (View.fragment text "" []).ClosesWith "" := rfl
  have h : Serves engine functions entry owner context [.fragment text "" []]
      (text ++ "" ++ "") := enclosing hcloses nil
  rwa [String.append_empty, String.append_empty] at h

theorem void {tag : String} {children : List View} (hend : Markup.endTag? tag = none) :
    Serves engine functions entry owner context [.element tag data children]
      (engine.registry.startTag tag data context) :=
  fun _ _ _ memory _ hfunctions => ⟨[], 1, memory, .void hend, hfunctions⟩

theorem content {tag content : String} {children : List View}
    (hend : Markup.endTag? tag = some closing) (hcontent : data.content? = some content) :
    Serves engine functions entry owner context [.element tag data children]
      (engine.registry.startTag tag data context ++ content ++ closing) :=
  fun _ _ _ memory _ hfunctions =>
    ⟨[], 1, memory, .content hend hcontent, hfunctions⟩

end Serves

namespace Engine

/-- What a component renders: its function is run when its hooks have succeeded. -/
theorem rendering?_eq_some_iff {engine : Engine} {functions : Component → Option RenderFunction}
    {pass : Pass} {owner : Option Instance} {component : Component} {data : NodeData}
    {inst : Instance} {root : View} :
    engine.rendering? functions pass owner component data = some (inst, root) ↔
      ∃ function, functions component = some function ∧
        (prefetch { Instance.create component data owner pass with render := some function }).value
          = .ok inst ∧ engine.render inst = .ok root := by
  have htoOption : ∀ {α : Type} {a : α} {result : Except RenderError α},
      result.toOption = some a ↔ result = .ok a := by
    rintro α a (e | b)
    · exact ⟨nofun, nofun⟩
    · exact ⟨fun h => congrArg _ (Option.some.inj h), fun h => congrArg _ (Except.ok.inj h)⟩
  simp only [rendering?, Option.bind_eq_bind, Option.bind_eq_some_iff, htoOption, Option.pure_def,
    Option.some.injEq, Prod.mk.injEq]
  constructor
  · rintro ⟨function, hfunction, _, hhooks, _, hroot, rfl, rfl⟩
    exact ⟨function, hfunction, hhooks, hroot⟩
  · rintro ⟨function, hfunction, hhooks, hroot⟩
    exact ⟨function, hfunction, inst, hhooks, root, hroot, rfl, rfl⟩

end Engine

/-- A component is entered with the function that is planned for it, or with its
    own if none is. -/
theorem Serializer.enters_planned {engine : Engine}
    {functions : Component → Option RenderFunction} {σ : Type} {plan : Plan σ}
    {owner : Option Instance} {component : Component} {data : NodeData} {before : Memory σ}
    {planned : Option RenderFunction} {state : σ} {inst : Instance} {root : View}
    (hfunctions : engine.function? before.engine = functions)
    (htold : plan.enter component data before.plan = (planned, state))
    (hrender : engine.rendering? (fun component => planned <|> functions component) .dynamic owner
      component data = some (inst, root)) :
    ∃ memory, Enters engine plan owner component data before inst root ⟨state, memory⟩ ∧
      engine.function? memory = functions := by
  obtain ⟨function, hfunction, hhooks, hroot⟩ := Engine.rendering?_eq_some_iff.mp hrender
  cases planned with
  | some given =>
      cases hfunction
      exact ⟨before.engine, .mk htold rfl hhooks hroot, hfunctions⟩
  | none =>
      rcases engine.ensureRender_spec (Instance.create component data owner .dynamic) rfl
        before.engine with ⟨own, memory, hensure, hown, hkept⟩ | ⟨e, memory, -, hnone, -⟩
      · rw [hfunctions] at hown
        cases hown.symm.trans hfunction
        exact ⟨memory, .mk htold hensure hhooks hroot, hkept.functions.trans hfunctions⟩
      · rw [hfunctions] at hnone
        cases hnone.symm.trans hfunction

/-- Work that is done within some steps is done within fewer, or is not finished
    by then. -/
theorem Serializer.work_of_le {engine : Engine} {σ : Type} {plan : Plan σ}
    {last : Serializer.Walk σ} {total : Nat} :
    ∀ {fewer : Nat} {out : String} {stack : List Work} {memory : Memory σ},
      fewer ≤ total → work engine plan total (memory.walk out stack) = .ok () last →
      work engine plan fewer (memory.walk out stack) = .ok () last ∨
        ∃ walk, work engine plan fewer (memory.walk out stack) = .error .unfinished walk := by
  induction total with
  | zero => exact fun hle h => Or.inl (Nat.le_zero.mp hle ▸ h)
  | succ total ih =>
      intro fewer out stack memory hle h
      cases fewer with
      | zero => exact Or.inr ⟨_, rfl⟩
      | succ fewer =>
          cases stack with
          | nil => exact Or.inl h
          | cons top rest =>
              obtain ⟨steps, walk, heq, hperform, hwork⟩ := perform_of_work h
              obtain rfl := Nat.succ.inj heq
              rw [work_of_perform hperform]
              exact @ih fewer walk.out walk.stack ⟨walk.plan, walk.engine⟩
                (Nat.le_of_succ_le_succ hle) hwork

/-- Views are written in one way only. -/
theorem Serializer.Rendition.unique {engine : Engine} {σ : Type} {plan : Plan σ}
    {owner : Option Instance} {context : TagContext} {views : List View}
    {before after after' : Memory σ} {html html' : String} {visits visits' : List Visit}
    {steps steps' : Nat}
    (h : Rendition engine plan owner context views before html visits steps after)
    (h' : Rendition engine plan owner context views before html' visits' steps' after') :
    html = html' := by
  have hwork := h.work (steps' + 1) "" []
  have hwork' := h'.work (steps + 1) "" []
  rw [show steps' + (steps + 1) = steps + (steps' + 1) by omega, hwork, String.empty_append,
    String.empty_append] at hwork'
  have hlast : EStateM.Result.ok () (after.walk html []) =
      EStateM.Result.ok () (after'.walk html' []) := hwork'
  injection hlast with _ hwalk
  exact congrArg Walk.out hwalk

/-- A rendition is what is written, if writing it finishes. -/
theorem Serializer.Rendition.html {engine : Engine} {σ : Type} {plan : Plan σ} {root : View}
    {state state' : σ} {memory memory' : Engine.State} {html : String}
    {visits : List Visit} {steps : Nat}
    (h : Rendition engine plan none .empty [root] ⟨state, memory⟩ html visits steps
      ⟨state', memory'⟩) :
    (engine.html plan root state memory).1 = .ok html ∨
      (engine.html plan root state memory).1 = .error .unfinished := by
  have hwork := h.work (Serializer.maxSteps + 1) "" []
  rw [String.empty_append] at hwork
  have hle : Serializer.maxSteps ≤ steps + (Serializer.maxSteps + 1) := by omega
  unfold Engine.html
  rcases Serializer.work_of_le hle hwork with hdone | ⟨walk, hwalk⟩
  · unfold Memory.walk viewWork at hdone
    rw [List.map_singleton, List.append_nil] at hdone
    rw [hdone]
    exact Or.inl rfl
  · unfold Memory.walk viewWork at hwalk
    rw [List.map_singleton, List.append_nil] at hwalk
    rw [hwalk]
    exact Or.inr rfl

/-- Markup without children is written as it is. -/
theorem Serves.eq_of_literal {engine : Engine} {functions : Component → Option RenderFunction}
    {entry : Option FoldedTree} {owner : Option Instance} {context : TagContext}
    {memory : Engine.State} {text html : String} (hfunctions : engine.function? memory = functions)
    (h : Serves engine functions entry owner context [.fragment text "" []] html) :
    html = text := by
  obtain ⟨_, _, _, hview, -⟩ := h default [] owner memory rfl hfunctions
  have hserves : Serves engine functions entry owner context [.fragment text "" []] text :=
    .literal text
  obtain ⟨_, _, _, hliteral, -⟩ := hserves default [] owner memory rfl hfunctions
  exact hview.unique hliteral

section Components

variable {engine : Engine} {functions : Component → Option RenderFunction}
  {entry : Option FoldedTree} {owner : Option Instance} {context : TagContext} {html : String}
  {data : NodeData} {inst : Instance} {view : View}

/-- A component is written with the function of its entry, or with its own if it
    has no entry, and what it renders is written under that entry. -/
theorem Serves.component {use : ComponentId} {child : Option FoldedTree}
    (hchild : FoldedTree.childFor? entry (engine.components use) data = child)
    (hroot : engine.rendering? (fun component => child.map (·.function) <|> functions component)
      .dynamic owner (engine.components use) data = some (inst, view))
    (h : Serves engine functions child (some inst)
      (context.nest data (engine.components use).scopeId) [view] html) :
    Serves engine functions entry owner context [.component use data] html := by
  intro tree outer other memory hsame hfunctions
  have hroot' : engine.rendering? (fun component => child.map (·.function) <|> functions component)
      .dynamic other (engine.components use) data = some (inst, view) := by
    rw [← hroot, Engine.rendering?, Engine.rendering?, hsame.create]
  have htold : tree.plan.enter (engine.components use) data (entry :: outer) =
      (child.map (·.function), child :: entry :: outer) := by
    rw [← hchild, ← tree.entry?_cons entry outer]
    rfl
  obtain ⟨between, henters, hbetween⟩ := @Serializer.enters_planned engine functions _ tree.plan
    other (engine.components use) data ⟨entry :: outer, memory⟩ _ _ inst view hfunctions htold
    hroot'
  obtain ⟨visits, _, after, hview, hafter⟩ :=
    h tree (entry :: outer) (some inst) between rfl hbetween
  exact ⟨_, _, after, .component .component henters hview, hafter⟩

/-- A component that names no place has no entry. -/
theorem FoldedTree.childFor?_of_unplaced (hplace : data.treeSlot = none) (component : Component) :
    childFor? entry component data = none := by
  cases entry <;>
    simp only [childFor?, hplace, Option.bind_none, Option.bind_some, Option.filter_none]

/-- Views that name no place are written under any entry as they are without a
    plan. -/
theorem Written.serves {cached : FactoryId → Option Resolution} {root : View}
    (hundeferred : ∀ owner factory data,
      ¬ Below engine functions cached root owner (.deferred factory data))
    (hunplaced : ∀ owner use data, Below engine functions cached root owner (.component use data) →
      data.treeSlot = none)
    {views : List View} {answers : List Answer} {steps : Nat}
    (h : Written engine functions .dynamic id owner context views answers html steps)
    (hbelow : ∀ view ∈ views, Below engine functions cached root owner view) :
    Serves engine functions entry owner context views html := by
  induction h generalizing entry with
  | nil => exact .nil
  | text hmarkup _ ih => exact (Serves.text hmarkup).cons (ih (List.forall_mem_cons.mp hbelow).2)
  | comment _ ih => exact (Serves.comment _).cons (ih (List.forall_mem_cons.mp hbelow).2)
  | @fragment _ _ opening closing children _ _ _ _ _ _ _ hchildren _ ihchildren ih =>
      obtain ⟨hview, hrest⟩ := List.forall_mem_cons.mp hbelow
      have hcloses : (View.fragment opening closing children).ClosesWith closing := rfl
      rw [hchildren.enclosed_id]
      exact (Serves.enclosing hcloses (ihchildren fun _ hchild => hview.inside hchild)).cons
        (ih hrest)
  | void hend hstart _ ih =>
      rw [← hstart]
      exact (Serves.void hend).cons (ih (List.forall_mem_cons.mp hbelow).2)
  | content hend hstart hcontent _ ih =>
      rw [← hstart]
      exact (Serves.content hend hcontent).cons (ih (List.forall_mem_cons.mp hbelow).2)
  | @element _ _ tag data children _ _ _ _ _ _ closing _ _ hend hstart hcontent _ _ ihchildren ih =>
      obtain ⟨hview, hrest⟩ := List.forall_mem_cons.mp hbelow
      have hcloses : (View.element tag data children).ClosesWith closing := ⟨hend, hcontent⟩
      rw [← hstart]
      refine (Serves.enclosing hcloses (ihchildren fun _ hchild => hview.inside ?_)).cons (ih hrest)
      simpa only [View.inside, hend, hcontent, Option.isSome_some, Option.isNone_none,
        Bool.and_self, if_true] using hchild
  | component hroot _ _ ihinner ih =>
      obtain ⟨hview, hrest⟩ := List.forall_mem_cons.mp hbelow
      exact (Serves.component (FoldedTree.childFor?_of_unplaced (hunplaced _ _ _ hview) _) hroot
        (ihinner (List.forall_mem_singleton.mpr (hview.component hroot)))).cons (ih hrest)
  | deferredComponent | deferredView | deferredViews | differing =>
      exact absurd (List.forall_mem_cons.mp hbelow).1 (hundeferred _ _ _)

/-- A component that has the root entry of a tree is written as what it renders
    is under that entry. -/
theorem Engine.html_of_serves {tree : FoldedTree} {use : ComponentId} {memory : State}
    (hname : tree.component = (engine.components use).name)
    (hroot : engine.rendering? (fun _ => some tree.function) .dynamic none (engine.components use)
      data = some (inst, view)) (hfunctions : engine.function? memory = functions)
    (h : Serves engine functions (some tree) (some inst)
      (TagContext.empty.nest data (engine.components use).scopeId) [view] html) :
    (engine.html tree.plan (.component use data) [] memory).1 = .ok html ∨
      (engine.html tree.plan (.component use data) [] memory).1 = .error .unfinished := by
  have hentry : tree.entry? (engine.components use) data [] = some tree := by
    unfold FoldedTree.entry?
    rw [Option.filter_eq_some_iff]
    exact ⟨rfl, beq_iff_eq.mpr hname⟩
  have htold : tree.plan.enter (engine.components use) data [] =
      (some tree.function, [some tree]) := by
    unfold FoldedTree.plan
    dsimp only
    rw [hentry]
    rfl
  obtain ⟨between, henters, hbetween⟩ := @Serializer.enters_planned engine functions _ tree.plan
    none (engine.components use) data ⟨[], memory⟩ _ _ inst view hfunctions htold hroot
  obtain ⟨visits, steps, after, hview, -⟩ := h tree [] (some inst) between rfl hbetween
  have hrendition : Rendition engine tree.plan none .empty [.component use data] ⟨[], memory⟩ html
      [.mk (engine.components use) data visits] (steps + 2) ⟨[], after⟩ :=
    .component .component henters hview
  exact hrendition.html

end Components

end RenderFold
