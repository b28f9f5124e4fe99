import RenderFold.Component.Engine
import RenderFold.Markup.Tag

/-!
# Written Markup

What markup a view amounts to, as a relation between the two. The serializer
computes it for the dynamic pass, with a stack and an engine that changes on
the way. The relation takes apart what the serializer does at once, so that
it can also be asked of the static pass, of a part of a tree, and of a tree
whose async components resolved to something else.

What an engine remembers enters in two places only. Which render function a
component has is a function of the component, since a template that was
compiled once is kept. What async components resolve to is a list of answers,
in the order in which they are asked for; an answer may be that the two
passes resolved to different kinds of things, and then a comment is written.

The relation is one on lists of views, so that there is a single one to
reason about. It counts steps the way the serializer does.

## Main definitions

* `Engine.function?`: The render function of a component.
* `Engine.rendering?`: The instance and the root of a component.
* `Answer`: What an async component resolved to.
* `Written`: The markup of views, the answers it takes and the steps.

## Theorems

* `Engine.ensureRender_spec`: Getting the render function of an instance.
* `Written.unique`: Views have at most one markup.
-/

namespace RenderFold

namespace Engine

/-- What the template compiler makes of a template. -/
def compiled? (engine : Engine) (template : String) : Option RenderFunction :=
  match engine.compiler with
  | none => none
  | some compiler =>
    match compiler template with
    | .error _ => none
    | .ok source => (RenderFunction.compile source).toOption

/-- The render function that a component gets. A template that was compiled
    before is not compiled again. -/
def function? (engine : Engine) (state : State) (component : Component) :
    Option RenderFunction :=
  match component.render, component.template with
  | some function, _ => some function
  | none, none => none
  | none, some template =>
    match state.templates.get? fingerprint template with
    | some function => some function
    | none => engine.compiled? template

/-- The instance of a component with what its hooks add, and the root that it
    renders. -/
def rendering? (engine : Engine) (functions : Component → Option RenderFunction) (pass : Pass)
    (owner : Option Instance) (component : Component) (data : NodeData) :
    Option (Instance × View) := do
  let function ← functions component
  let inst := { Instance.create component data owner pass with render := some function }
  let inst ← (prefetch inst).value.toOption
  let root ← (engine.render inst).toOption
  return (inst, root)

end Engine

/-- What an async component resolved to, `none` if the other pass resolved to
    a different kind of thing. -/
structure Answer where
  factory : FactoryId
  resolution : Option Resolution
  deriving Inhabited

/-- The context of the elements that an instance renders. -/
def TagContext.within (owner : Option Instance) : TagContext :=
  .ownedBy (owner.bind (·.component.scopeId))

/-- Markup around children. `childless` is applied where there are none. -/
def enclosed (childless : String → String) (opening closing : String) (children : List View)
    (content : String) : String :=
  if children.isEmpty then childless (opening ++ closing) else opening ++ content ++ closing

/-- The markup of views that the render function of `owner` produced in the
    given pass, with the answers that are needed and the steps it takes.
    Markup without children goes through `childless`. -/
inductive Written (engine : Engine) (functions : Component → Option RenderFunction) (pass : Pass)
    (childless : String → String) :
    Option Instance → TagContext → List View → List Answer → String → Nat → Prop where
  | nil {owner context} : Written engine functions pass childless owner context [] [] "" 0
  | text {owner context content raw rest answers markup html steps}
      (hmarkup : (View.text content raw).textMarkup? = some markup)
      (hrest : Written engine functions pass childless owner context rest answers html steps) :
      Written engine functions pass childless owner context (.text content raw :: rest) answers
        (markup ++ html) (steps + 1)
  | comment {owner context content rest answers html steps}
      (hrest : Written engine functions pass childless owner context rest answers html steps) :
      Written engine functions pass childless owner context (.comment content :: rest) answers
        ("<!--" ++ content ++ "-->" ++ html) (steps + 1)
  | fragment {owner context opening closing children rest inner answers content html cost steps}
      (hchildren : Written engine functions pass childless owner (.within owner) children inner
        content cost)
      (hrest : Written engine functions pass childless owner context rest answers html steps) :
      Written engine functions pass childless owner context
        (.fragment opening closing children :: rest) (inner ++ answers)
        (enclosed childless opening closing children content ++ html) (cost + 2 + steps)
  | void {owner context tag data children rest answers html start steps}
      (hend : Markup.endTag? tag = none)
      (hstart : engine.registry.startTag tag data context = start)
      (hrest : Written engine functions pass childless owner context rest answers html steps) :
      Written engine functions pass childless owner context (.element tag data children :: rest)
        answers (start ++ html) (steps + 1)
  | content {owner context tag data children rest answers html start closing content steps}
      (hend : Markup.endTag? tag = some closing)
      (hstart : engine.registry.startTag tag data context = start)
      (hcontent : data.content? = some content)
      (hrest : Written engine functions pass childless owner context rest answers html steps) :
      Written engine functions pass childless owner context (.element tag data children :: rest)
        answers (start ++ content ++ closing ++ html) (steps + 1)
  | element {owner context tag data children rest inner answers content html start closing cost
        steps}
      (hend : Markup.endTag? tag = some closing)
      (hstart : engine.registry.startTag tag data context = start)
      (hcontent : data.content? = none)
      (hchildren : Written engine functions pass childless owner (.within owner) children inner
        content cost)
      (hrest : Written engine functions pass childless owner context rest answers html steps) :
      Written engine functions pass childless owner context (.element tag data children :: rest)
        (inner ++ answers) (start ++ content ++ closing ++ html) (cost + 2 + steps)
  | component {owner context id data inst root rest inner answers content html cost steps}
      (hroot : engine.rendering? functions pass owner (engine.components id) data
        = some (inst, root))
      (hinner : Written engine functions pass childless (some inst)
        (context.nest data (engine.components id).scopeId) [root] inner content cost)
      (hrest : Written engine functions pass childless owner context rest answers html steps) :
      Written engine functions pass childless owner context (.component id data :: rest)
        (inner ++ answers) (content ++ html) (cost + 2 + steps)
  | deferredComponent {owner context factory id data inst root rest inner answers content html cost
        steps}
      (hroot : engine.rendering? functions pass owner (engine.components id) data
        = some (inst, root))
      (hinner : Written engine functions pass childless (some inst)
        (context.nest data (engine.components id).scopeId) [root] inner content cost)
      (hrest : Written engine functions pass childless owner context rest answers html steps) :
      Written engine functions pass childless owner context (.deferred factory data :: rest)
        (⟨factory, some (.component id)⟩ :: inner ++ answers) (content ++ html) (cost + 2 + steps)
  | deferredView {owner context factory data view rest inner answers content html cost steps}
      (hinner : Written engine functions pass childless owner context [view] inner content cost)
      (hrest : Written engine functions pass childless owner context rest answers html steps) :
      Written engine functions pass childless owner context (.deferred factory data :: rest)
        (⟨factory, some (.view view)⟩ :: inner ++ answers) (content ++ html) (cost + 1 + steps)
  | deferredViews {owner context factory data views rest inner answers content html cost steps}
      (hinner : Written engine functions pass childless owner context views inner content cost)
      (hrest : Written engine functions pass childless owner context rest answers html steps) :
      Written engine functions pass childless owner context (.deferred factory data :: rest)
        (⟨factory, some (.views views)⟩ :: inner ++ answers) (content ++ html) (cost + 1 + steps)
  | differing {owner context factory data rest answers html steps}
      (hrest : Written engine functions pass childless owner context rest answers html steps) :
      Written engine functions pass childless owner context (.deferred factory data :: rest)
        (⟨factory, none⟩ :: answers) ("<!---->" ++ html) (steps + 1)

namespace Engine

variable {engine : Engine} {inst : Instance} {state : State}

/-- Storing what a template is compiled to changes no render function. -/
theorem function?_insert {template : String} {function : RenderFunction}
    (hnone : state.templates.get? fingerprint template = none)
    (hcompiled : engine.compiled? template = some function) (component : Component) :
    engine.function?
        { state with
          compilations := state.compilations + 1
          templates := state.templates.insert fingerprint template function } component =
      engine.function? state component := by
  unfold function?
  cases hrender : component.render with
  | some own => rfl
  | none =>
      cases htemplate : component.template with
      | none => rfl
      | some other =>
          dsimp only
          -- The template itself had no function stored, and now has the same compiled.
          by_cases h : other = template
          · rw [h, SourceCache.get?_insert_self, hnone, hcompiled]
          · rw [SourceCache.get?_insert_of_ne _ _ h]

/-- What is left behind by getting the render function of an instance: all
    components keep their render functions, and no factory is asked. -/
structure Kept (engine : Engine) (before after : State) : Prop where
  functions : engine.function? after = engine.function? before
  factories : after.factories = before.factories

theorem Kept.refl (engine : Engine) (state : State) : Kept engine state state := ⟨rfl, rfl⟩

theorem Kept.trans {a b c : State} (hab : Kept engine a b) (hbc : Kept engine b c) :
    Kept engine a c :=
  ⟨hbc.functions.trans hab.functions, hbc.factories.trans hab.factories⟩

/-- Compiling the template of a component that has no render function gives
    the function that the component has. -/
theorem compileTemplate_spec {component : Component} {template : String}
    (hrender : component.render = none) (htemplate : component.template = some template)
    (state : State) :
    (∃ function after, engine.compileTemplate component state = .ok function after ∧
        engine.function? state component = some function ∧ Kept engine state after) ∨
      ∃ e after, engine.compileTemplate component state = .error e after ∧
        engine.function? state component = none ∧ Kept engine state after := by
  have hfunction : engine.function? state component =
      (match state.templates.get? fingerprint template with
        | some function => some function
        | none => engine.compiled? template) := by
    simp only [function?, hrender, htemplate]
  have hget : (get : EngineM State) state = .ok state state := rfl
  simp only [compileTemplate, htemplate, bind, EStateM.bind, hget]
  rw [hfunction]
  cases hcached : state.templates.get? fingerprint template with
  | some function => exact Or.inl ⟨function, state, rfl, rfl, .refl engine state⟩
  -- The template is compiled now. Only if all of that succeeds is anything stored,
  -- and that is what the component has as its function anyway.
  | none =>
      dsimp only
      cases hcompiler : engine.compiler with
      | none =>
          refine Or.inr ⟨.missingCompiler component.name, state, rfl, ?_, .refl engine state⟩
          simp only [compiled?, hcompiler]
      | some compiler =>
          have hcount : engine.function? { state with compilations := state.compilations + 1 } =
              engine.function? state := rfl
          cases hsource : compiler template with
          | error message =>
              refine Or.inr ⟨.templateCompile component.name message, _, ?_, ?_, hcount, rfl⟩
              · simp only [hsource]
                rfl
              · simp only [compiled?, hcompiler, hsource]
          | ok source =>
              cases hread : RenderFunction.compile source with
              | error e =>
                  refine Or.inr ⟨.parse e, _, ?_, ?_, hcount, rfl⟩
                  · simp only [hsource, hread]
                    rfl
                  · simp only [compiled?, hcompiler, hsource, hread, Except.toOption]
              | ok function =>
                  have hcompiled : engine.compiled? template = some function := by
                    simp only [compiled?, hcompiler, hsource, hread, Except.toOption]
                  refine Or.inl ⟨function, _, ?_, hcompiled,
                    funext fun other => function?_insert hcached hcompiled other, rfl⟩
                  simp only [hsource, hread]
                  rfl

/-- Getting a render function gives the one that the component has. -/
theorem ensureRender_spec (inst : Instance) (hrender : inst.render = inst.component.render)
    (state : State) :
    (∃ function after, engine.ensureRender inst state =
        .ok (function, { inst with render := some function }) after ∧
        engine.function? state inst.component = some function ∧ Kept engine state after) ∨
      ∃ e after, engine.ensureRender inst state = .error e after ∧
        engine.function? state inst.component = none ∧ Kept engine state after := by
  unfold ensureRender
  cases hown : inst.render with
  | some function =>
      refine Or.inl ⟨function, state, ?_, ?_, .refl engine state⟩
      · simp only [← hown]
        rfl
      · simp only [function?, ← hrender, hown]
  -- An instance that has no function gets that of its component's template.
  | none =>
      have hown' : inst.component.render = none := hrender.symm.trans hown
      cases htemplate : inst.component.template with
      | none =>
          refine Or.inr ⟨.missingRender inst.component.name, state, rfl, ?_, .refl engine state⟩
          simp only [function?, hown', htemplate]
      | some template =>
          simp only [Option.isNone_some, Bool.false_eq_true, if_false, bind, EStateM.bind]
          rcases compileTemplate_spec hown' htemplate state with
            ⟨function, after, hcompile, hfunction, hkept⟩ | ⟨e, after, hcompile, hfunction, hkept⟩
          · exact Or.inl ⟨function, after, by rw [hcompile]; rfl, hfunction, hkept⟩
          · exact Or.inr ⟨e, after, by rw [hcompile], hfunction, hkept⟩

/-- Without hooks, an instance is left as it is. -/
theorem prefetch_of_nil (h : inst.component.prefetch = []) : (prefetch inst).value = .ok inst := by
  have hjoin : (Delayed.joinAll ([] : List (Delayed (Except String Value)))).value = .ok [] :=
    Delayed.joinAll_ok.mpr rfl
  simp only [prefetch, h, List.map_nil, Delayed.map, hjoin]
  rfl

end Engine

namespace Written

variable {engine : Engine} {functions : Component → Option RenderFunction} {pass : Pass}
  {childless : String → String} {owner : Option Instance} {context : TagContext}
  {views : List View} {answers answers' later later' : List Answer} {html html' : String}
  {steps steps' : Nat}

theorem alone {opening closing text : String} (htext : childless (opening ++ closing) = text)
    (h : Written engine functions pass childless owner context views answers html steps) :
    Written engine functions pass childless owner context (.fragment opening closing [] :: views)
      answers (text ++ html) (0 + 2 + steps) := by
  rw [← htext]
  exact .fragment .nil h

theorem around {opening closing content : String} {children : List View} {inner : List Answer}
    {cost : Nat} (hsome : children ≠ [])
    (hchildren : Written engine functions pass childless owner (.within owner) children inner
      content cost)
    (h : Written engine functions pass childless owner context views answers html steps) :
    Written engine functions pass childless owner context
      (.fragment opening closing children :: views) (inner ++ answers)
      (opening ++ content ++ closing ++ html) (cost + 2 + steps) := by
  have henclosed : enclosed childless opening closing children content =
      opening ++ content ++ closing := by
    rw [enclosed, if_neg (by rwa [List.isEmpty_iff])]
  rw [← henclosed]
  exact .fragment hchildren h

/-- Nothing is written after the last view. -/
theorem of_append_nil
    (h : Written engine functions pass childless owner context views (answers ++ []) (html ++ "")
      steps) : Written engine functions pass childless owner context views answers html steps := by
  rwa [List.append_nil, String.append_empty] at h

/-- Views one after another amount to their markup one after another. -/
theorem append
    (h : Written engine functions pass childless owner context views answers html steps)
    {views' : List View}
    (h' : Written engine functions pass childless owner context views' answers' html' steps') :
    Written engine functions pass childless owner context (views ++ views') (answers ++ answers')
      (html ++ html') (steps + steps') := by
  induction h with
  | nil => rwa [String.empty_append, Nat.zero_add]
  | text hmarkup _ ih =>
      rw [String.append_assoc, Nat.add_right_comm]
      exact .text hmarkup (ih h')
  | comment _ ih =>
      rw [String.append_assoc, Nat.add_right_comm]
      exact .comment (ih h')
  | fragment hchildren _ _ ih =>
      rw [String.append_assoc, Nat.add_assoc, List.append_assoc]
      exact .fragment hchildren (ih h')
  | void hend hstart _ ih =>
      rw [String.append_assoc, Nat.add_right_comm]
      exact .void hend hstart (ih h')
  | content hend hstart hcontent _ ih =>
      rw [String.append_assoc, Nat.add_right_comm]
      exact .content hend hstart hcontent (ih h')
  | element hend hstart hcontent hchildren _ _ ih =>
      rw [String.append_assoc, Nat.add_assoc, List.append_assoc]
      exact .element hend hstart hcontent hchildren (ih h')
  | component hroot hinner _ _ ih =>
      rw [String.append_assoc, Nat.add_assoc, List.append_assoc]
      exact .component hroot hinner (ih h')
  | deferredComponent hroot hinner _ _ ih =>
      rw [String.append_assoc, Nat.add_assoc, List.append_assoc]
      exact .deferredComponent hroot hinner (ih h')
  | deferredView hinner _ _ ih =>
      rw [String.append_assoc, Nat.add_assoc, List.append_assoc]
      exact .deferredView hinner (ih h')
  | deferredViews hinner _ _ ih =>
      rw [String.append_assoc, Nat.add_assoc, List.append_assoc]
      exact .deferredViews hinner (ih h')
  | differing _ ih =>
      rw [String.append_assoc, Nat.add_right_comm]
      exact .differing (ih h')

/-- Markup around children is itself, if nothing is done where there are none. -/
theorem enclosed_id {opening closing : String}
    (h : Written engine functions pass childless owner context views answers html steps) :
    enclosed id opening closing views html = opening ++ html ++ closing := by
  unfold enclosed
  split
  · next hnil =>
      rw [List.isEmpty_iff] at hnil
      subst hnil
      cases h
      rw [String.append_empty]
      rfl
  · rfl

/-- Views have at most one markup, and it takes a fixed part of the answers
    that are there. -/
theorem unique
    (h : Written engine functions pass childless owner context views answers html steps)
    (h' : Written engine functions pass childless owner context views answers' html' steps')
    (hanswers : answers ++ later = answers' ++ later') :
    answers = answers' ∧ html = html' := by
  -- By induction on the first derivation. The view decides the rule of the other
  -- one, but for async components, where the first answer does.
  induction h generalizing answers' html' steps' later later' with
  | nil => cases h'; exact ⟨rfl, rfl⟩
  | text hmarkup hrest ih =>
      cases h' with
      | text hmarkup' hrest' =>
          obtain ⟨rfl, rfl⟩ := ih hrest' hanswers
          cases hmarkup.symm.trans hmarkup'
          exact ⟨rfl, rfl⟩
  | comment hrest ih =>
      cases h' with
      | comment hrest' =>
          obtain ⟨rfl, rfl⟩ := ih hrest' hanswers
          exact ⟨rfl, rfl⟩
  | fragment hchildren hrest ihchildren ih =>
      cases h' with
      | fragment hchildren' hrest' =>
          rw [List.append_assoc, List.append_assoc] at hanswers
          obtain ⟨rfl, rfl⟩ := ihchildren hchildren' hanswers
          obtain ⟨rfl, rfl⟩ := ih hrest' (List.append_cancel_left hanswers)
          exact ⟨rfl, rfl⟩
  | void hend hstart hrest ih =>
      cases h' with
      | void hend' hstart' hrest' =>
          obtain ⟨rfl, rfl⟩ := ih hrest' hanswers
          cases hstart.symm.trans hstart'
          exact ⟨rfl, rfl⟩
      | content hend' => cases hend.symm.trans hend'
      | element hend' => cases hend.symm.trans hend'
  | content hend hstart hcontent hrest ih =>
      cases h' with
      | void hend' => cases hend.symm.trans hend'
      | content hend' hstart' hcontent' hrest' =>
          obtain ⟨rfl, rfl⟩ := ih hrest' hanswers
          cases hstart.symm.trans hstart'
          cases hend.symm.trans hend'
          cases hcontent.symm.trans hcontent'
          exact ⟨rfl, rfl⟩
      | element hend' hstart' hcontent' => cases hcontent.symm.trans hcontent'
  | element hend hstart hcontent hchildren hrest ihchildren ih =>
      cases h' with
      | void hend' => cases hend.symm.trans hend'
      | content hend' hstart' hcontent' => cases hcontent.symm.trans hcontent'
      | element hend' hstart' hcontent' hchildren' hrest' =>
          rw [List.append_assoc, List.append_assoc] at hanswers
          obtain ⟨rfl, rfl⟩ := ihchildren hchildren' hanswers
          obtain ⟨rfl, rfl⟩ := ih hrest' (List.append_cancel_left hanswers)
          cases hstart.symm.trans hstart'
          cases hend.symm.trans hend'
          exact ⟨rfl, rfl⟩
  | component hroot hinner hrest ihinner ih =>
      cases h' with
      | component hroot' hinner' hrest' =>
          cases hroot.symm.trans hroot'
          rw [List.append_assoc, List.append_assoc] at hanswers
          obtain ⟨rfl, rfl⟩ := ihinner hinner' hanswers
          obtain ⟨rfl, rfl⟩ := ih hrest' (List.append_cancel_left hanswers)
          exact ⟨rfl, rfl⟩
  | deferredComponent hroot hinner hrest ihinner ih =>
      cases h' with
      | deferredComponent hroot' hinner' hrest' =>
          simp only [List.cons_append, List.append_assoc, List.cons.injEq, Answer.mk.injEq,
            Option.some.injEq, Resolution.component.injEq] at hanswers
          obtain ⟨⟨-, rfl⟩, hanswers⟩ := hanswers
          cases hroot.symm.trans hroot'
          obtain ⟨rfl, rfl⟩ := ihinner hinner' hanswers
          obtain ⟨rfl, rfl⟩ := ih hrest' (List.append_cancel_left hanswers)
          exact ⟨rfl, rfl⟩
      | _ => simp at hanswers
  | deferredView hinner hrest ihinner ih =>
      cases h' with
      | deferredView hinner' hrest' =>
          simp only [List.cons_append, List.append_assoc, List.cons.injEq, Answer.mk.injEq,
            Option.some.injEq, Resolution.view.injEq] at hanswers
          obtain ⟨⟨-, rfl⟩, hanswers⟩ := hanswers
          obtain ⟨rfl, rfl⟩ := ihinner hinner' hanswers
          obtain ⟨rfl, rfl⟩ := ih hrest' (List.append_cancel_left hanswers)
          exact ⟨rfl, rfl⟩
      | _ => simp at hanswers
  | deferredViews hinner hrest ihinner ih =>
      cases h' with
      | deferredViews hinner' hrest' =>
          simp only [List.cons_append, List.append_assoc, List.cons.injEq, Answer.mk.injEq,
            Option.some.injEq, Resolution.views.injEq] at hanswers
          obtain ⟨⟨-, rfl⟩, hanswers⟩ := hanswers
          obtain ⟨rfl, rfl⟩ := ihinner hinner' hanswers
          obtain ⟨rfl, rfl⟩ := ih hrest' (List.append_cancel_left hanswers)
          exact ⟨rfl, rfl⟩
      | _ => simp at hanswers
  | differing hrest ih =>
      cases h' with
      | differing hrest' =>
          obtain ⟨rfl, rfl⟩ := ih hrest' (List.cons.inj hanswers).2
          exact ⟨rfl, rfl⟩
      | _ => simp at hanswers

end Written

end RenderFold
