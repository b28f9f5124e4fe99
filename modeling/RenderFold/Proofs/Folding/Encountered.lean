import RenderFold.Proofs.Folding.Trampoline
import RenderFold.Proofs.Folding.Resumed
import RenderFold.Proofs.Html.Served

/-!
# What Comes of Meeting a Pair

A pair is met in one of three ways. Nothing is below it that could be compared,
and then at most its markup is recorded. Or its children are compared next, if
both nodes are written around as many of them. Or it uses a component, which is
rendered on both sides, with its function copied into the program.

Blanks at either end of markup without children do not count when two nodes are
compared. So the markup that is recorded is that of both only if they agree in
their blanks.

## Main definitions

* `Twin.Trimmed`: Nodes that agree in their blanks.
* `Pair.Tells`, `Pair.Opens`: What is recorded about the dynamic node.
* `Walk.Encounters`: What comes of meeting a pair.

## Theorems

* `Walk.meet_encounters`: A meeting that succeeds comes to one of these.
-/

namespace RenderFold

open Script (Id)

/-- Markup without children is the same on both sides if it is up to blanks. -/
def Twin.Trimmed (view : Twin View) : Prop :=
  ∀ opening closing opening' closing',
    view = ⟨.fragment opening closing [], .fragment opening' closing' []⟩ →
    Text.trim (opening ++ closing) = Text.trim (opening' ++ closing') →
    opening ++ closing = opening' ++ closing'

/-- The dynamic node of a pair amounts to a text, if it amounts to anything. -/
def Pair.Tells (engine : Engine) (pair : Pair) (text : String) : Prop :=
  ∀ functions cached owner html,
    Amounts engine functions cached .dynamic owner pair.context.dynamic [pair.view.dynamic] html →
    html = text

/-- What opens the dynamic node of a pair may have been recorded for its expression. -/
def Pair.Opens (engine : Engine) (pair : Pair) (before after : Program) : Prop :=
  after = before ∨
    after = before.setText pair.slot (pair.view.dynamic.opening engine pair.context.dynamic)

namespace Walk

/-- What comes of meeting a pair whose nodes are no async components. -/
inductive Encounters (engine : Engine) (walk : Walk) (pair : Pair) : Walk → Prop where
  /-- Nothing is compared below the pair. -/
  | rests {program : Program} (hprogram : program = walk.program ∨
      ∃ text, program = walk.program.markStatic pair.slot text ∧ pair.Tells engine text) :
      Encounters engine walk pair { walk with program }
  /-- The children are compared next. -/
  | descends {closing : String} {program : Program}
      (hcloses : pair.view.dynamic.ClosesWith closing)
      (hlength : pair.view.static.children.length = pair.view.dynamic.children.length)
      (hprogram : pair.Opens engine walk.program program) :
      Encounters engine walk pair
        { walk with
          program := (program.correlate pair.slot pair.view.static.children.length).2
          frames := .element pair.slot closing (.ofList
            ((pair.view.static.children.zipWith Twin.mk pair.view.dynamic.children).zipWith
              (Pair.mk · · (.within walk.active))
              (program.correlate pair.slot pair.view.static.children.length).1)) :: walk.frames }
  /-- The roots of two components are compared next. -/
  | enters {id id' : ComponentId} {data data' : NodeData} {own : RenderFunction}
      {instances : Twin Instance} {roots : Twin View} {context : TagContext} {state : Engine.State}
      {program : Program}
      (hview : pair.view = ⟨.component id data, .component id' data'⟩)
      (hname : (engine.components id).name = (engine.components id').name)
      (hown : engine.function? walk.engine (engine.components id) = some own)
      (hstate : engine.function? state = engine.function? walk.engine)
      (hcomponent : instances.static.component = engine.components id)
      (hrender : engine.rendering? (engine.function? walk.engine) .dynamic
        (walk.active.map (·.dynamic)) (engine.components id') data' =
          some (instances.dynamic, roots.dynamic))
      (hprogram : program = ⟨(walk.program.arena.graft own.arena own.root).2,
        walk.program.findings.setFunction pair.slot
          (walk.program.arena.graft own.arena own.root).1⟩) :
      Encounters engine walk pair
        { walk with
          program := (program.locateRoot (walk.program.arena.graft own.arena own.root).1).2
          frames := .component ⟨pair.slot,
              (program.locateRoot (walk.program.arena.graft own.arena own.root).1).1,
              instances.static, own, walk.active⟩
            (.ofList [⟨roots, (program.locateRoot
                (walk.program.arena.graft own.arena own.root).1).1,
              ⟨context, pair.context.dynamic.nest data' (engine.components id').scopeId⟩⟩]) ::
              walk.frames
          active := some instances
          builder := walk.builder.enter instances.static.component.name
            instances.static.component.styles
          engine := state }

variable {engine : Engine} {walk : Walk} {pair : Pair}

namespace Encounters

theorem same : Encounters engine walk pair walk := .rests (.inl rfl)

theorem marks {text : String} (htells : pair.Tells engine text) :
    Encounters engine walk pair { walk with program := walk.program.markStatic pair.slot text } :=
  .rests (.inr ⟨text, rfl, htells⟩)

/-- The markup of both nodes is recorded if it is the same. -/
theorem records {static dynamic : Option String}
    (htells : ∀ text, dynamic = some text → pair.Tells engine text) :
    Encounters engine walk pair
      { walk with program := walk.program.recordText pair.slot static dynamic } := by
  unfold Program.recordText
  cases static <;> cases dynamic <;> dsimp only
  case some.some static dynamic =>
    split
    · next heq => exact marks (heq ▸ htells dynamic rfl)
    · exact same
  all_goals exact same

end Encounters

/-- The children of two nodes are compared next. -/
theorem descend_eq (slot : Id) (closing : String) (children : Twin (List View)) :
    descend slot closing children walk = .ok ()
      { walk with
        program := (walk.program.correlate slot children.static.length).2
        frames := .element slot closing (.ofList
          ((children.static.zipWith Twin.mk children.dynamic).zipWith
            (Pair.mk · · (.within walk.active))
            (walk.program.correlate slot children.static.length).1)) :: walk.frames } := by
  rw [← elementContext_eq]
  rfl

theorem compareFragments_encounters {opening closing opening' closing' : String}
    {children children' : List View}
    (hview : pair.view =
      ⟨.fragment opening closing children, .fragment opening' closing' children'⟩)
    (htrimmed : pair.view.Trimmed) :
    Leads (compareFragments pair.slot ⟨opening, opening'⟩ ⟨closing, closing'⟩ ⟨children, children'⟩)
      walk (fun _ after => Encounters engine walk pair after) fun _ => False := by
  obtain ⟨view, slot, context⟩ := pair
  subst hview
  have hcloses : (View.fragment opening' closing' children').ClosesWith closing' := rfl
  unfold compareFragments
  dsimp only
  split
  · next hempty =>
      obtain ⟨hnone, hnone'⟩ : children = [] ∧ children' = [] := by simpa using hempty
      subst hnone hnone'
      split
      · next htrim =>
          refine Encounters.marks fun functions cached owner html hhtml => ?_
          obtain ⟨content, rfl, hcontent⟩ := (Amounts.enclosing_iff hcloses).mp hhtml
          rw [Amounts.nil_iff.mp hcontent, String.append_empty]
          exact (htrimmed _ _ _ _ rfl htrim).symm
      · exact Encounters.same
  · split
    · next hsame =>
        obtain ⟨⟨hlength, rfl⟩, rfl⟩ : (children.length = children'.length ∧ opening = opening') ∧
          closing = closing' := by simpa using hsame
        rw [leads_bind, leads_onProgram, Leads, descend_eq]
        exact .descends hcloses hlength (.inr rfl)
    · exact Encounters.same

theorem compareElements_encounters {tag : String} {data data' : NodeData}
    {children children' : List View}
    (hview : pair.view = ⟨.element tag data children, .element tag data' children'⟩) :
    Leads (compareElements engine pair tag ⟨data, data'⟩ ⟨children, children'⟩) walk
      (fun _ after => Encounters engine walk pair after) fun _ => False := by
  obtain ⟨view, slot, context⟩ := pair
  subst hview
  unfold compareElements
  dsimp only
  cases hend : Markup.endTag? tag with
  | none =>
      refine Encounters.records fun text htext functions cached owner html hhtml => ?_
      obtain rfl := Option.some.inj htext
      exact (Amounts.void_iff hend).mp hhtml
  | some closing =>
      dsimp only
      split
      · next hcontent hcontent' =>
          have hcloses : (View.element tag data' children').ClosesWith closing := ⟨hend, hcontent'⟩
          split
          · next hempty =>
              obtain ⟨hnone, hnone'⟩ : children = [] ∧ children' = [] := by simpa using hempty
              subst hnone hnone'
              refine Encounters.records fun text htext functions cached owner html hhtml => ?_
              obtain rfl := Option.some.inj htext
              obtain ⟨content, rfl, hinner⟩ := (Amounts.enclosing_iff hcloses).mp hhtml
              rw [Amounts.nil_iff.mp hinner, String.append_empty]
              rfl
          · split
            · next hlength =>
                split
                · next hstart =>
                    rw [leads_bind, leads_onProgram, Leads, descend_eq]
                    exact .descends hcloses hlength (.inr (by rw [hstart]; rfl))
                · rw [Leads, descend_eq]
                  exact .descends hcloses hlength (.inl rfl)
            · exact Encounters.same
      · next content content' hcontent hcontent' =>
          split
          · next hsame =>
              obtain ⟨hstart, rfl⟩ : engine.registry.startTag tag data context.static =
                  engine.registry.startTag tag data' context.dynamic ∧ content = content' := by
                simpa using hsame
              rw [hstart]
              exact Encounters.marks fun functions cached owner html hhtml =>
                (Amounts.content_iff hend hcontent').mp hhtml
          · exact Encounters.same
      · exact Encounters.same

theorem compareComponents_encounters {id id' : ComponentId} {data data' : NodeData}
    (hview : pair.view = ⟨.component id data, .component id' data'⟩) :
    Leads (compareComponents engine pair ⟨engine.components id, engine.components id'⟩
      ⟨data, data'⟩ >>= enter engine) walk (fun _ after => Encounters engine walk pair after)
      fun _ => True := by
  rw [compareComponents_enter]
  dsimp only
  split
  · next hname =>
      unfold prepare
      rw [leads_bind, leads_bind, leads_get, leads_bind, leads_onEngine]
      dsimp only
      rcases engine.ensureRender_spec (Instance.create (engine.components id) data
          (walk.active.map (·.static)) .static) rfl walk.engine with
        ⟨own, state, hensure, hown, hkept⟩ | ⟨e, state, hensure, -⟩
      · rw [hensure]
        dsimp only
        rw [leads_bind, leads_onEngine]
        rcases engine.ensureRender_spec (Instance.create (engine.components id') data'
            (walk.active.map (·.dynamic)) .dynamic) rfl state with
          ⟨other, state', hensure', hother, hkept'⟩ | ⟨e, state', hensure', -⟩
        · dsimp only
          rw [hensure']
          dsimp only
          rw [leads_bind, leads_fromProgram]
          show Leads (enter engine (some (.component _))) _ _ _
          cases hboth : Engine.prefetchBoth
              { Instance.create (engine.components id) data (walk.active.map (·.static))
                  .static with render := some own }
              { Instance.create (engine.components id') data' (walk.active.map (·.dynamic))
                  .dynamic with render := some other } with
          | mk result instances =>
              obtain ⟨static, dynamic⟩ := instances
              cases result with
              | error e =>
                  rw [Leads, enter_component_error hboth]
                  trivial
              | ok =>
                  obtain ⟨hhooks, hhooks'⟩ := Engine.prefetchBoth_ok hboth
                  rw [Leads, enter_component hboth]
                  show Leads (enterComponent engine _) _ _ _
                  unfold enterComponent
                  rw [leads_bind, leads_ofExcept]
                  dsimp only
                  cases hroot : engine.render static with
                  | error e => trivial
                  | ok root =>
                      dsimp only
                      rw [leads_bind, leads_ofExcept]
                      cases hroot' : engine.render dynamic with
                      | error e => trivial
                      | ok root' =>
                          rw [hkept.functions] at hother
                          exact @Encounters.enters engine walk pair id id' data data' own
                            ⟨static, dynamic⟩ ⟨root, root'⟩ _ state' _ hview hname hown
                            (hkept.trans hkept').functions (prefetch_component hhooks)
                            (Engine.rendering?_eq_some_iff.mpr ⟨other, hother, hhooks', hroot'⟩)
                            rfl
        · dsimp only
          rw [hensure']
          trivial
      · rw [hensure]
        trivial
  · exact Encounters.same

theorem compare_encounters (hview : ¬ BothDeferred pair.view) (htrimmed : pair.view.Trimmed) :
    Leads (compare engine 1 pair >>= enter engine) walk
      (fun _ after => Encounters engine walk pair after) fun _ => True := by
  have hfails (work : Walking Unit) (h : Leads work walk
      (fun _ after => Encounters engine walk pair after) fun _ => False) :
      Leads work walk (fun _ after => Encounters engine walk pair after) fun _ => True :=
    leads_mono h (fun _ _ h => h) fun _ h => h.elim
  obtain ⟨⟨static, dynamic⟩, slot, context⟩ := pair
  unfold compare
  cases static <;> cases dynamic
  case deferred.deferred => exact absurd ⟨_, _, _, _, rfl⟩ hview
  case text.text =>
    exact .records fun text htext functions cached owner html hhtml =>
      (Amounts.text_iff htext).mp hhtml
  case comment.comment content content' =>
    dsimp only
    rw [bind_assoc, leads_bind, leads_get]
    split
    · next hsame =>
        obtain ⟨rfl, -⟩ : content = content' ∧ walk.options.foldComments = true := by
          simpa using hsame
        exact .marks fun functions cached owner html hhtml => Amounts.comment_iff.mp hhtml
    · exact .same
  case fragment.fragment opening closing children opening' closing' children' =>
    dsimp only
    rw [bind_assoc]
    refine hfails _ ?_
    rw [leads_bind]
    exact @compareFragments_encounters engine walk
      ⟨⟨.fragment opening closing children, .fragment opening' closing' children'⟩, slot, context⟩
      _ _ _ _ _ _ rfl htrimmed
  case element.element tag data children tag' data' children' =>
    dsimp only
    split
    · next htag =>
        subst htag
        rw [bind_assoc]
        refine hfails _ ?_
        rw [leads_bind]
        exact compareElements_encounters rfl
    · exact .same
  case component.component => exact compareComponents_encounters rfl
  all_goals exact .same

/-- A meeting that succeeds comes to one of the three. -/
theorem meet_encounters {depth : Nat} {after : Walk} (hview : ¬ BothDeferred pair.view)
    (htrimmed : pair.view.Trimmed) (hmeet : meet engine depth pair walk = .ok () after) :
    Encounters engine walk pair after := by
  cases depth with
  | zero => cases hmeet
  | succ depth =>
      rw [meet, arrive_follow_of_plain hview] at hmeet
      have hencounters := leads_ok (compare_encounters hview htrimmed) hmeet
      exact hencounters

end Walk

end RenderFold
