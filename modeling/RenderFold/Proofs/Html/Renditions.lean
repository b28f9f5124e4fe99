import RenderFold.Html.Serializer
import RenderFold.Proofs.Html.Written

/-!
# Renditions

What writing a document comes to, told by recursion over the document. The
start tag of an element comes before its children and the end tag after
them, a component is entered, its root is written, and it is left, and what
an async component resolves to is written in its place.

The serializer has no recursion. It keeps the work that is left on a stack,
and the call that leaves a component is a piece of work like any other. That
both come to the same is because a step never looks below the work that it
puts on the stack: whatever stands there is done after all of it, in the
state that all of it leaves behind.

A plan is told of every component in the document, so a rendition also
counts the visits to components. A visit holds the visits inside it, and the
calls that a plan gets are read off the visits alone.

## Main definitions

* `Plan.Call`, `Plan.hear`: What a plan is told, and what it makes of it.
* `Serializer.Visit`: A component in a document, with those inside it.
* `Serializer.Enters`: What entering a component takes.
* `Serializer.Rendition`: The markup of views by recursion.

## Theorems

* `Serializer.Rendition.hears`: A plan gets the calls of the visits.
* `Serializer.Rendition.work`: Working off views comes to their rendition.
* `Serializer.work_rendition`: There is no other way to work off views.
* `Engine.html_eq_ok_iff`: The markup of a document is its rendition.
-/

namespace RenderFold

/-- What a plan is told while a document is written. -/
inductive Plan.Call where
  | enter (component : Component) (data : NodeData)
  | leave

/-- The state of a plan after a call. -/
def Plan.hear {σ : Type} (plan : Plan σ) (state : σ) : Plan.Call → σ
  | .enter component data => (plan.enter component data state).2
  | .leave => plan.leave state

namespace Serializer

/-- A component in a document, with the components inside it in the order in
    which they stand there. -/
inductive Visit where
  | mk (component : Component) (data : NodeData) (inner : List Visit)

namespace Visit

mutual

/-- What a plan is told of a visit: that the component is entered, then of the
    visits inside it, then that it is left. -/
def calls : Visit → List Plan.Call
  | mk component data inner => .enter component data :: (allCalls inner ++ [.leave])
termination_by structural visit => visit

/-- What a plan is told of visits in turn. -/
def allCalls : List Visit → List Plan.Call
  | [] => []
  | visit :: rest => calls visit ++ allCalls rest
termination_by structural visits => visits

end

theorem allCalls_append (visits later : List Visit) :
    allCalls (visits ++ later) = allCalls visits ++ allCalls later := by
  induction visits with
  | nil => rfl
  | cons visit rest ih => rw [List.cons_append, allCalls, allCalls, ih, List.append_assoc]

theorem allCalls_singleton (visit : Visit) : allCalls [visit] = calls visit := List.append_nil _

end Visit

variable {σ : Type}

/-- What writing changes besides the markup: the state of the plan, and what
    the engine remembers. -/
structure Memory (σ : Type) where
  plan : σ
  engine : Engine.State

/-- The state of the serializer with that memory. -/
def Memory.walk (memory : Memory σ) (out : String) (stack : List Work) : Walk σ :=
  ⟨out, stack, memory.plan, memory.engine⟩

variable {engine : Engine} {plan : Plan σ} {owner : Option Instance} {context : TagContext}

/-- A view stands for a component: it is one, or it is an async component that
    resolves to one. -/
inductive StandsFor (engine : Engine) :
    View → Engine.State → Component → NodeData → Engine.State → Prop where
  | component {id data memory} :
      StandsFor engine (.component id data) memory (engine.components id) data memory
  | deferred {factory data id memory resolved}
      (hresolve : engine.resolve factory memory = .ok (.component id) resolved) :
      StandsFor engine (.deferred factory data) memory (engine.components id) data resolved

/-- A component is entered. The plan is told before anything else and may give
    a render function, which goes before the component's own; the instance is
    what the hooks leave, and renders the root. -/
inductive Enters (engine : Engine) (plan : Plan σ) (owner : Option Instance)
    (component : Component) (data : NodeData) :
    Memory σ → Instance → View → Memory σ → Prop where
  | mk {before : Memory σ} {planned : Option RenderFunction} {state : σ}
      {function : RenderFunction} {ready inst : Instance} {memory : Engine.State} {root : View}
      (htold : plan.enter component data before.plan = (planned, state))
      (hready : engine.ensureRender { Instance.create component data owner .dynamic with
        render := planned <|> component.render } before.engine = .ok (function, ready) memory)
      (hhooks : (Engine.prefetch ready).value = .ok inst)
      (hroot : engine.render inst = .ok root) :
      Enters engine plan owner component data before inst root ⟨state, memory⟩

/-- The markup of views that the render function of `owner` produced, told by
    recursion over the document, with the components visited on the way. A
    step is a piece of work that the serializer takes off its stack. -/
inductive Rendition (engine : Engine) (plan : Plan σ) :
    Option Instance → TagContext → List View → Memory σ → String → List Visit → Nat →
      Memory σ → Prop where
  | nil {owner context memory} :
      Rendition engine plan owner context [] memory "" [] 0 memory
  | cons {owner context view rest before html visits steps between later visits' steps' after}
      (hview : Rendition engine plan owner context [view] before html visits steps between)
      (hrest : Rendition engine plan owner context rest between later visits' steps' after) :
      Rendition engine plan owner context (view :: rest) before (html ++ later)
        (visits ++ visits') (steps + steps') after
  | text {owner context content raw markup memory}
      (hmarkup : (View.text content raw).textMarkup? = some markup) :
      Rendition engine plan owner context [.text content raw] memory markup [] 1 memory
  | comment {owner context content memory} :
      Rendition engine plan owner context [.comment content] memory
        ("<!--" ++ content ++ "-->") [] 1 memory
  | fragment {owner context opening closing children before content visits steps after}
      (hchildren : Rendition engine plan owner (.within owner) children before content visits
        steps after) :
      Rendition engine plan owner context [.fragment opening closing children] before
        (opening ++ content ++ closing) visits (steps + 2) after
  | void {owner context tag data children memory} (hend : Markup.endTag? tag = none) :
      Rendition engine plan owner context [.element tag data children] memory
        (engine.registry.startTag tag data context) [] 1 memory
  | content {owner context tag data children closing content memory}
      (hend : Markup.endTag? tag = some closing) (hcontent : data.content? = some content) :
      Rendition engine plan owner context [.element tag data children] memory
        (engine.registry.startTag tag data context ++ content ++ closing) [] 1 memory
  | element {owner context tag data children closing before content visits steps after}
      (hend : Markup.endTag? tag = some closing) (hcontent : data.content? = none)
      (hchildren : Rendition engine plan owner (.within owner) children before content visits
        steps after) :
      Rendition engine plan owner context [.element tag data children] before
        (engine.registry.startTag tag data context ++ content ++ closing) visits (steps + 2) after
  | component {owner context view component data before resolved inst root between html visits
        steps after}
      (hstands : StandsFor engine view before.engine component data resolved)
      (henters : Enters engine plan owner component data ⟨before.plan, resolved⟩ inst root between)
      (hroot : Rendition engine plan (some inst) (context.nest data component.scopeId) [root]
        between html visits steps after) :
      Rendition engine plan owner context [view] before html [.mk component data visits]
        (steps + 2) ⟨plan.leave after.plan, after.engine⟩
  | resolvedView {owner context factory data view before resolved html visits steps after}
      (hresolve : engine.resolve factory before.engine = .ok (.view view) resolved)
      (hview : Rendition engine plan owner context [view] ⟨before.plan, resolved⟩ html visits
        steps after) :
      Rendition engine plan owner context [.deferred factory data] before html visits (steps + 1)
        after
  | resolvedViews {owner context factory data views before resolved html visits steps after}
      (hresolve : engine.resolve factory before.engine = .ok (.views views) resolved)
      (hviews : Rendition engine plan owner context views ⟨before.plan, resolved⟩ html visits
        steps after) :
      Rendition engine plan owner context [.deferred factory data] before html visits (steps + 1)
        after

/-- What a plan has been told by the end of a rendition are the calls of the
    visits, in order. -/
theorem Rendition.hears {views : List View} {before after : Memory σ} {html : String}
    {visits : List Visit} {steps : Nat}
    (h : Rendition engine plan owner context views before html visits steps after) :
    after.plan = (Visit.allCalls visits).foldl plan.hear before.plan := by
  induction h with
  | nil => rfl
  | cons _ _ ihview ihrest => rw [Visit.allCalls_append, List.foldl_append, ← ihview, ihrest]
  | text | comment | void | content => rfl
  | fragment _ ih | element _ _ _ ih | resolvedView _ _ ih | resolvedViews _ _ ih => exact ih
  | component _ henters _ ih =>
      obtain ⟨htold, -, -, -⟩ := henters
      rw [Visit.allCalls_singleton, Visit.calls, List.foldl_cons, List.foldl_append, Plan.hear,
        htold, ← ih]
      rfl

/-- A rendition takes a step for each view at least. -/
theorem Rendition.length_le {views : List View} {before after : Memory σ} {html : String}
    {visits : List Visit} {steps : Nat}
    (h : Rendition engine plan owner context views before html visits steps after) :
    views.length ≤ steps := by
  induction h with
  | cons _ _ ihview ihrest =>
      simp only [List.length_cons, List.length_nil] at ihview ⊢
      omega
  | nil | text | comment | void | content => simp
  | fragment | element | component | resolvedView | resolvedViews => simp

/-- The work that views make. -/
def viewWork (owner : Option Instance) (context : TagContext) (views : List View) : List Work :=
  views.map fun view => .view view owner context

theorem viewWork_singleton {view : View} {rest : List Work} :
    viewWork owner context [view] ++ rest = .view view owner context :: rest := rfl

/-- A step of work, and the rest. -/
theorem work_cons {steps : Nat} {top : Work} {rest : List Work} {out : String} {state : σ}
    {memory : Engine.State} :
    work engine plan (steps + 1) ⟨out, top :: rest, state, memory⟩ =
      (do perform engine plan top; work engine plan steps) ⟨out, rest, state, memory⟩ := by
  have hget (walk : Walk σ) : (get : Walking σ (Walk σ)) walk = .ok walk walk := rfl
  have hset (walk next : Walk σ) : (set next : Walking σ PUnit) walk = .ok ⟨⟩ next := rfl
  simp only [work, bind, EStateM.bind, hget, hset]

/-- The rest of the work goes on from what a step leaves behind. -/
theorem work_of_perform {steps : Nat} {top : Work} {rest : List Work} {out : String}
    {memory : Memory σ} {walk : Walk σ}
    (h : perform engine plan top (memory.walk out rest) = .ok () walk) :
    work engine plan (steps + 1) (memory.walk out (top :: rest)) = work engine plan steps walk := by
  unfold Memory.walk at h ⊢
  simp only [work_cons, bind, EStateM.bind, h]

/-- Work that is done in the end has a step for the top of the stack, and that
    step succeeds. -/
theorem perform_of_work {total : Nat} {top : Work} {rest : List Work} {out : String}
    {memory : Memory σ} {last : Walk σ}
    (h : work engine plan total (memory.walk out (top :: rest)) = .ok () last) :
    ∃ steps walk, total = steps + 1 ∧ perform engine plan top (memory.walk out rest) = .ok () walk ∧
      work engine plan steps walk = .ok () last := by
  cases total with
  | zero => cases h
  | succ steps =>
      unfold Memory.walk at h ⊢
      rw [work_cons] at h
      simp only [bind, EStateM.bind] at h
      split at h
      · next walk hperform => exact ⟨steps, walk, rfl, hperform, h⟩
      · cases h

/-- Entering a component, part by part. -/
theorem component_eq (component : Component) (data : NodeData) (out : String) (rest : List Work)
    (before : Memory σ) :
    Serializer.component engine plan component data owner context (before.walk out rest) =
      match engine.ensureRender { Instance.create component data owner .dynamic with
          render := (plan.enter component data before.plan).1 <|> component.render }
          before.engine with
      | .error e memory =>
        .error e ⟨out, rest, (plan.enter component data before.plan).2, memory⟩
      | .ok (_, ready) memory =>
        match (Engine.prefetch ready).value with
        | .error e => .error e ⟨out, rest, (plan.enter component data before.plan).2, memory⟩
        | .ok inst =>
          match engine.render inst with
          | .error e => .error e ⟨out, rest, (plan.enter component data before.plan).2, memory⟩
          | .ok root => .ok () ⟨out, .view root (some inst) (context.nest data component.scopeId) ::
              .leave :: rest, (plan.enter component data before.plan).2, memory⟩ := by
  have henter : (enter plan component data : Walking σ _) (before.walk out rest) =
      .ok (plan.enter component data before.plan).1
        ⟨out, rest, (plan.enter component data before.plan).2, before.engine⟩ := rfl
  have hown : (Instance.create component data owner .dynamic).render = component.render := rfl
  simp only [Serializer.component, bind, EStateM.bind, henter, hown, onEngine]
  cases engine.ensureRender { Instance.create component data owner .dynamic with
      render := (plan.enter component data before.plan).1 <|> component.render } before.engine with
  | error e memory => rfl
  | ok found memory =>
      dsimp only
      cases (Engine.prefetch found.2).value with
      | error e => rfl
      | ok inst =>
          dsimp only [ofExcept]
          simp only [pure, EStateM.pure]
          cases engine.render inst <;> rfl

/-- What entering a component leaves on the stack is the root, and that the
    component is left after it. -/
theorem component_eq_ok_iff {component : Component} {data : NodeData} {out : String}
    {rest : List Work} {before : Memory σ} {walk : Walk σ} :
    Serializer.component engine plan component data owner context (before.walk out rest) =
        .ok () walk ↔
      ∃ inst root after, Enters engine plan owner component data before inst root after ∧
        walk = after.walk out (.view root (some inst) (context.nest data component.scopeId) ::
          .leave :: rest) := by
  rw [component_eq]
  constructor
  · intro h
    split at h
    · cases h
    · next ready memory hready =>
        split at h
        · cases h
        · next inst hhooks =>
            split at h
            · cases h
            · next root hroot =>
                cases h
                exact ⟨inst, root, _, .mk rfl hready hhooks hroot, rfl⟩
  · rintro ⟨inst, root, after, ⟨htold, hready, hhooks, hroot⟩, rfl⟩
    simp only [htold, hready, hhooks, hroot]
    rfl

theorem Enters.component {component : Component} {data : NodeData} {out : String}
    {rest : List Work} {before after : Memory σ} {inst : Instance} {root : View}
    (h : Enters engine plan owner component data before inst root after) :
    Serializer.component engine plan component data owner context (before.walk out rest) =
      .ok () (after.walk out (.view root (some inst) (context.nest data component.scopeId) ::
        .leave :: rest)) :=
  component_eq_ok_iff.mpr ⟨inst, root, after, h, rfl⟩

section Perform

variable {out : String} {rest : List Work} {before : Memory σ}

theorem perform_markup {text : String} :
    perform engine plan (.markup text) (before.walk out rest) =
      .ok () (before.walk (out ++ text) rest) := rfl

theorem perform_leave :
    perform engine plan .leave (before.walk out rest) =
      .ok () (Memory.walk ⟨plan.leave before.plan, before.engine⟩ out rest) := rfl

theorem perform_text {content markup : String} {raw : Bool}
    (hmarkup : (View.text content raw).textMarkup? = some markup) :
    perform engine plan (.view (.text content raw) owner context) (before.walk out rest) =
      .ok () (before.walk (out ++ markup) rest) := by
  cases raw <;> cases hmarkup <;> rfl

theorem perform_comment {content : String} :
    perform engine plan (.view (.comment content) owner context) (before.walk out rest) =
      .ok () (before.walk (out ++ ("<!--" ++ content ++ "-->")) rest) := rfl

/-- The children of a fragment come between its markup. -/
theorem perform_fragment {opening closing : String} {children : List View} :
    perform engine plan (.view (.fragment opening closing children) owner context)
        (before.walk out rest) =
      .ok () (before.walk (out ++ opening)
        (viewWork owner (.within owner) children ++ .markup closing :: rest)) := by
  rw [List.append_cons]
  rfl

theorem perform_void {tag : String} {data : NodeData} {children : List View}
    (hend : Markup.endTag? tag = none) :
    perform engine plan (.view (.element tag data children) owner context)
        (before.walk out rest) =
      .ok () (before.walk (out ++ engine.registry.startTag tag data context) rest) := by
  simp only [perform, write, bind, EStateM.bind, hend]
  rfl

theorem perform_content {tag closing content : String} {data : NodeData} {children : List View}
    (hend : Markup.endTag? tag = some closing) (hcontent : data.content? = some content) :
    perform engine plan (.view (.element tag data children) owner context)
        (before.walk out rest) =
      .ok () (before.walk (out ++ (engine.registry.startTag tag data context ++ content ++ closing))
        rest) := by
  simp only [perform, write, bind, EStateM.bind, hend, hcontent]
  rw [String.append_assoc, ← String.append_assoc]
  rfl

/-- The children of an element come between its tags. -/
theorem perform_element {tag closing : String} {data : NodeData} {children : List View}
    (hend : Markup.endTag? tag = some closing) (hcontent : data.content? = none) :
    perform engine plan (.view (.element tag data children) owner context)
        (before.walk out rest) =
      .ok () (before.walk (out ++ engine.registry.startTag tag data context)
        (viewWork owner (.within owner) children ++ .markup closing :: rest)) := by
  rw [List.append_cons]
  simp only [perform, write, bind, EStateM.bind, hend, hcontent]
  rfl

/-- What an async component resolves to comes in its place. -/
theorem perform_deferred {factory : FactoryId} {data : NodeData} {resolution : Resolution}
    {resolved : Engine.State}
    (hresolve : engine.resolve factory before.engine = .ok resolution resolved) :
    perform engine plan (.view (.deferred factory data) owner context) (before.walk out rest) =
      match resolution with
      | .component id => Serializer.component engine plan (engine.components id) data owner context
          (Memory.walk ⟨before.plan, resolved⟩ out rest)
      | .view view => .ok () (Memory.walk ⟨before.plan, resolved⟩ out
          (viewWork owner context [view] ++ rest))
      | .views views => .ok () (Memory.walk ⟨before.plan, resolved⟩ out
          (viewWork owner context views ++ rest)) := by
  simp only [perform, write, bind, EStateM.bind, onEngine, Memory.walk, hresolve]
  cases resolution <;> rfl

/-- What a view stands for is entered in its place. -/
theorem StandsFor.perform {view : View} {component : Component} {data : NodeData}
    {resolved : Engine.State} (h : StandsFor engine view before.engine component data resolved) :
    perform engine plan (.view view owner context) (before.walk out rest) =
      Serializer.component engine plan component data owner context
        (Memory.walk ⟨before.plan, resolved⟩ out rest) := by
  cases h with
  | component => rfl
  | deferred hresolve => exact perform_deferred hresolve

end Perform

/-- Work that a piece of work puts on the stack, with a last piece below it. -/
theorem work_between {top last : Work} {inner rest : List Work} {before between after : Memory σ}
    {walk : Walk σ} {out opened written : String} {steps left : Nat}
    (hopen : perform engine plan top (before.walk out rest) =
      .ok () (between.walk opened (inner ++ last :: rest)))
    (hinner : ∀ left rest, work engine plan (steps + left) (between.walk opened (inner ++ rest)) =
      work engine plan left (after.walk written rest))
    (hclose : perform engine plan last (after.walk written rest) = .ok () walk) :
    work engine plan (steps + 2 + left) (before.walk out (top :: rest)) =
      work engine plan left walk := by
  rw [show steps + 2 + left = steps + (left + 1) + 1 by omega, work_of_perform hopen, hinner,
    work_of_perform hclose]

/-- Views are worked off as in their rendition, whatever stands below them,
    and that is gone on with. -/
theorem Rendition.work {views : List View} {before after : Memory σ} {html : String}
    {visits : List Visit} {steps : Nat}
    (h : Rendition engine plan owner context views before html visits steps after) (left : Nat)
    (out : String) (rest : List Work) :
    work engine plan (steps + left) (before.walk out (viewWork owner context views ++ rest)) =
      work engine plan left (after.walk (out ++ html) rest) := by
  induction h generalizing left out rest with
  | nil => rw [Nat.zero_add, String.append_empty]; rfl
  | @cons owner context view views _ _ _ _ _ _ _ _ _ _ _ ihview ihrest =>
      have hsplit : viewWork owner context (view :: views) ++ rest =
        viewWork owner context [view] ++ (viewWork owner context views ++ rest) := rfl
      rw [hsplit, Nat.add_assoc, ihview, ihrest, String.append_assoc]
  | text hmarkup => rw [Nat.add_comm]; exact work_of_perform (perform_text hmarkup)
  | comment => rw [Nat.add_comm]; exact work_of_perform perform_comment
  | void hend => rw [Nat.add_comm]; exact work_of_perform (perform_void hend)
  | content hend hcontent =>
      rw [Nat.add_comm]
      exact work_of_perform (perform_content hend hcontent)
  | fragment _ ih =>
      rw [viewWork_singleton]
      refine (work_between perform_fragment (fun _ _ => ih ..) perform_markup).trans ?_
      simp only [String.append_assoc]
  | element hend hcontent _ ih =>
      rw [viewWork_singleton]
      refine (work_between (perform_element hend hcontent) (fun _ _ => ih ..)
        perform_markup).trans ?_
      simp only [String.append_assoc]
  | component hstands henters _ ih =>
      exact work_between (hstands.perform.trans henters.component) (fun _ _ => ih ..) perform_leave
  | resolvedView hresolve _ ih =>
      rw [Nat.add_right_comm]
      exact (work_of_perform (perform_deferred hresolve)).trans (ih ..)
  | resolvedViews hresolve _ ih =>
      rw [Nat.add_right_comm]
      exact (work_of_perform (perform_deferred hresolve)).trans (ih ..)

/-- Work with views on top of the stack that is done in the end has a rendition
    of the views, and goes on from there. -/
def Rendered (engine : Engine) (plan : Plan σ) (total : Nat) (owner : Option Instance)
    (context : TagContext) (views : List View) (before : Memory σ) (out : String)
    (rest : List Work) (last : Walk σ) : Prop :=
  ∃ html visits steps left after,
    Rendition engine plan owner context views before html visits steps after ∧
    total = steps + left ∧ work engine plan left (after.walk (out ++ html) rest) = .ok () last

/-- Work with views on top of the stack, in at most `total` steps, has a
    rendition of the views. -/
def Renders (engine : Engine) (plan : Plan σ) (total : Nat) : Prop :=
  ∀ steps ≤ total, ∀ {owner : Option Instance} {context : TagContext} {views : List View}
    {before : Memory σ} {out : String} {rest : List Work} {last : Walk σ},
    work engine plan steps (before.walk out (viewWork owner context views ++ rest)) =
      .ok () last →
    Rendered engine plan steps owner context views before out rest last

section Rendered

variable {total : Nat} {view : View} {before : Memory σ} {out : String} {rest : List Work}
  {last : Walk σ}

/-- A view that takes one step. -/
theorem Rendered.once {html : String}
    (hview : Rendition engine plan owner context [view] before html [] 1 before)
    (hwork : work engine plan total (before.walk (out ++ html) rest) = .ok () last) :
    Rendered engine plan (total + 1) owner context [view] before out rest last :=
  ⟨html, [], 1, total, before, hview, Nat.add_comm _ _, hwork⟩

/-- Markup around children. -/
theorem Rendered.around {children : List View} {opening closing : String}
    (ih : Renders engine plan total)
    (hview : ∀ {content visits steps after},
      Rendition engine plan owner (.within owner) children before content visits steps after →
      Rendition engine plan owner context [view] before (opening ++ content ++ closing) visits
        (steps + 2) after)
    (hwork : work engine plan total (before.walk (out ++ opening)
      (viewWork owner (.within owner) children ++ .markup closing :: rest)) = .ok () last) :
    Rendered engine plan (total + 1) owner context [view] before out rest last := by
  obtain ⟨content, visits, steps, left, after, hchildren, rfl, hleft⟩ :=
    ih total (Nat.le_refl _) hwork
  obtain ⟨left, walk, rfl, hclose, hleft⟩ := perform_of_work hleft
  rw [perform_markup] at hclose
  cases hclose
  refine ⟨_, visits, steps + 2, left, after, hview hchildren, by omega, ?_⟩
  simpa only [String.append_assoc] using hleft

/-- A component. -/
theorem Rendered.component {component : Component} {data : NodeData} {resolved : Engine.State}
    {walk : Walk σ} (ih : Renders engine plan total)
    (hstands : StandsFor engine view before.engine component data resolved)
    (henter : Serializer.component engine plan component data owner context
      (Memory.walk ⟨before.plan, resolved⟩ out rest) = .ok () walk)
    (hwork : work engine plan total walk = .ok () last) :
    Rendered engine plan (total + 1) owner context [view] before out rest last := by
  obtain ⟨inst, root, between, henters, rfl⟩ := component_eq_ok_iff.mp henter
  rw [← viewWork_singleton] at hwork
  obtain ⟨html, visits, steps, left, after, hroot, rfl, hleft⟩ := ih total (Nat.le_refl _) hwork
  -- What is on top of the stack now is that the component is left.
  obtain ⟨left, walk, rfl, hleave, hleft⟩ := perform_of_work hleft
  cases hleave
  exact ⟨html, _, steps + 2, left, _, .component hstands henters hroot, by omega, hleft⟩

/-- What an async component resolves to. -/
theorem Rendered.resolved {views : List View} {resolved : Engine.State}
    (ih : Renders engine plan total)
    (hview : ∀ {html visits steps after},
      Rendition engine plan owner context views ⟨before.plan, resolved⟩ html visits steps after →
      Rendition engine plan owner context [view] before html visits (steps + 1) after)
    (hwork : work engine plan total (Memory.walk ⟨before.plan, resolved⟩ out
      (viewWork owner context views ++ rest)) = .ok () last) :
    Rendered engine plan (total + 1) owner context [view] before out rest last := by
  obtain ⟨html, visits, steps, left, after, hviews, rfl, hleft⟩ := ih total (Nat.le_refl _) hwork
  exact ⟨html, visits, steps + 1, left, after, hview hviews, by omega, hleft⟩

/-- The view on top of the stack. -/
theorem Rendered.of_perform {walk : Walk σ} (ih : Renders engine plan total)
    (hperform : perform engine plan (.view view owner context) (before.walk out rest) =
      .ok () walk)
    (hwork : work engine plan total walk = .ok () last) :
    Rendered engine plan (total + 1) owner context [view] before out rest last := by
  cases view with
  | text content raw =>
      obtain ⟨markup, hmarkup⟩ : ∃ markup, (View.text content raw).textMarkup? = some markup := by
        cases raw <;> exact ⟨_, rfl⟩
      rw [perform_text hmarkup] at hperform
      cases hperform
      exact .once (.text hmarkup) hwork
  | comment content =>
      cases hperform
      exact .once .comment hwork
  | fragment opening closing children =>
      rw [perform_fragment] at hperform
      cases hperform
      exact .around ih .fragment hwork
  | element tag data children =>
      cases hend : Markup.endTag? tag with
      | none =>
          rw [perform_void hend] at hperform
          cases hperform
          exact .once (.void hend) hwork
      | some closing =>
          cases hcontent : data.content? with
          | some content =>
              rw [perform_content hend hcontent] at hperform
              cases hperform
              exact .once (.content hend hcontent) hwork
          | none =>
              rw [perform_element hend hcontent] at hperform
              cases hperform
              exact .around ih (.element hend hcontent) hwork
  | component use data => exact .component ih .component hperform hwork
  | deferred factory data =>
      cases hresolve : engine.resolve factory before.engine with
      | error e resolved =>
          simp only [perform, write, bind, EStateM.bind, onEngine, Memory.walk, hresolve]
            at hperform
          cases hperform
      | ok resolution resolved =>
          rw [perform_deferred hresolve] at hperform
          cases resolution with
          | component use => exact .component ih (.deferred hresolve) hperform hwork
          | view inner =>
              cases hperform
              exact .resolved ih (.resolvedView hresolve) hwork
          | views inner =>
              cases hperform
              exact .resolved ih (.resolvedViews hresolve) hwork

end Rendered

/-- There is no way to work off views but their rendition. -/
theorem work_rendition (total : Nat) : Renders engine plan total := by
  -- By induction on the bound, as a view leaves fewer steps to those after it.
  induction total with
  | zero =>
      intro steps hsteps owner context views before out rest last hwork
      rw [Nat.le_zero.mp hsteps] at hwork
      cases hwork
  | succ total ih =>
      intro steps hsteps owner context views before out rest last hwork
      cases views with
      | nil =>
          refine ⟨"", [], 0, steps, before, .nil, (Nat.zero_add _).symm, ?_⟩
          rw [String.append_empty]
          exact hwork
      | cons view views =>
          obtain ⟨fewer, walk, rfl, hperform, hwork⟩ := perform_of_work hwork
          obtain ⟨html, visits, cost, left, between, hview, hsum, hwork⟩ :=
            Rendered.of_perform (fun steps hle => ih steps (by omega)) hperform hwork
          have hcost : 1 ≤ cost := hview.length_le
          obtain ⟨later, visits', cost', left, after, hviews, rfl, hwork⟩ :=
            ih left (by omega) hwork
          refine ⟨html ++ later, visits ++ visits', cost + cost', left, after, .cons hview hviews,
            by omega, ?_⟩
          rwa [← String.append_assoc]

end Serializer

/-- A document that has markup has a rendition that takes fewer steps than
    are allowed. -/
theorem Engine.rendition_of_html {σ : Type} {engine : Engine} {plan : Plan σ} {root : View}
    {state state' : σ} {memory memory' : State} {html : String}
    (h : engine.html plan root state memory = (.ok html, state', memory')) :
    ∃ visits steps,
      Serializer.Rendition engine plan none .empty [root] ⟨state, memory⟩ html visits steps
        ⟨state', memory'⟩ ∧ steps < Serializer.maxSteps := by
  unfold Engine.html at h
  split at h
  · next walk hwork =>
      cases h
      have hstack : Serializer.work engine plan Serializer.maxSteps
          (Serializer.Memory.walk ⟨state, memory⟩ ""
            (Serializer.viewWork none .empty [root] ++ [])) = .ok () walk := hwork
      obtain ⟨html, visits, steps, left, after, hroot, hsum, hleft⟩ :=
        Serializer.work_rendition Serializer.maxSteps Serializer.maxSteps (Nat.le_refl _) hstack
      -- The last step of a run finds an empty stack.
      cases left with
      | zero => cases hleft
      | succ left =>
          cases hleft
          refine ⟨visits, steps, ?_, by omega⟩
          rw [String.empty_append]
          exact hroot
  · cases h

/-- The markup of a document is its rendition by recursion, and what the plan
    is told on the way are the calls of the components in it, each entered
    and left around those inside it. A document has markup if and only if it
    has a rendition that takes fewer steps than are allowed. -/
theorem Engine.html_eq_ok_iff {σ : Type} {engine : Engine} {plan : Plan σ} {root : View}
    {state state' : σ} {memory memory' : State} {html : String} :
    engine.html plan root state memory = (.ok html, state', memory') ↔
      ∃ visits steps,
        Serializer.Rendition engine plan none .empty [root] ⟨state, memory⟩ html visits steps
          ⟨state', memory'⟩ ∧
        steps < Serializer.maxSteps ∧
        state' = (Serializer.Visit.allCalls visits).foldl plan.hear state := by
  constructor
  · intro h
    obtain ⟨visits, steps, hroot, hsteps⟩ := rendition_of_html h
    exact ⟨visits, steps, hroot, hsteps, hroot.hears⟩
  · rintro ⟨visits, steps, hroot, hsteps, -⟩
    obtain ⟨left, hleft⟩ : ∃ left, Serializer.maxSteps = steps + (left + 1) :=
      ⟨Serializer.maxSteps - steps - 1, by omega⟩
    have hwork : Serializer.work engine plan Serializer.maxSteps
        (Serializer.Memory.walk ⟨state, memory⟩ "" [.view root none .empty]) =
        .ok () (Serializer.Memory.walk ⟨state', memory'⟩ html []) := by
      rw [hleft]
      refine (hroot.work (left + 1) "" []).trans ?_
      rw [String.empty_append]
      rfl
    unfold Engine.html
    unfold Serializer.Memory.walk at hwork
    rw [hwork]

end RenderFold
