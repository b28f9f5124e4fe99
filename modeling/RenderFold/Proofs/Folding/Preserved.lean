import RenderFold.Proofs.Folding.CarriedWalks
import RenderFold.Proofs.Folding.Lined
import RenderFold.Proofs.Folding.Substituted
import RenderFold.Proofs.Folding.Turns

/-!
# Folding Keeps the Markup

A component is folded, and the plan that comes of it is what the component is
written with. It gets the markup that it gets without a plan.

This takes a tree that is regular. Places that nodes name in their data, raw
texts with something to escape in them, functions that the engine refuses and
functions that are not read back as they were printed are excluded, as each of
them can change the markup. So are components of one name that differ, and async
components. Markup without children is compared without the blanks around it, so
the two sides have to agree in these. A function that was rewritten may take more
steps than before, and the serializer need not finish with it.

The engine may be in the state that it is in after folding, or in any other one
in which its components have the same functions.

## Main definitions

* `Descent.Stays`: Places below two nodes that are below the dynamic one.
* `Welcome.engine`: An engine for a page with a card.

## Theorems

* `Engine.Visits.all_below`: What is compared is below the root.
* `Walk.WorksOff.stands`: The entry that is made stands for the component.
* `Engine.html_folded`: Folding keeps the markup.
-/

namespace RenderFold

open Script (Arena Id Tree)

section Compared

variable {engine : Engine} {functions : Component → Option RenderFunction}
  {cached : FactoryId → Option Resolution} {root : View} {active : Option (Twin Instance)}
  {state middle : Engine.State} {descent : Descent} {place : Place}

/-- The places below two nodes are below the dynamic one. -/
def Descent.Stays (engine : Engine) (functions : Component → Option RenderFunction)
    (cached : FactoryId → Option Resolution) (root : View) (descent : Descent) : Prop :=
  ∀ kind active places, descent = .opens kind active places → ∀ place ∈ places,
    Below engine functions cached root (active.map (·.dynamic)) place.view.dynamic

namespace Descent

theorem Stays.nothing : Descent.nothing.Stays engine functions cached root := by
  rintro _ _ _ ⟨⟩

/-- Children of the dynamic node are compared, each with one of the other node. -/
theorem Stays.children {kind : String} {context : Twin TagContext} {views : Twin (List View)}
    (h : ∀ view ∈ views.dynamic,
      Below engine functions cached root (active.map (·.dynamic)) view) :
    (Descent.children kind active context views).Stays engine functions cached root := by
  unfold Descent.children
  split
  · rintro _ _ _ ⟨⟩ place hplace
    obtain ⟨view, hview, rfl⟩ := List.mem_map.mp hplace
    rw [← List.map_uncurry_zip_eq_zipWith] at hview
    obtain ⟨⟨static, dynamic⟩, hpair, rfl⟩ := List.mem_map.mp hview
    exact h dynamic (List.of_mem_zip hpair).2
  · exact .nothing

theorem Stays.fragments {opening closing : Twin String} {views : Twin (List View)}
    (h : ∀ view ∈ views.dynamic,
      Below engine functions cached root (active.map (·.dynamic)) view) :
    (Descent.fragments active opening closing views).Stays engine functions cached root := by
  unfold Descent.fragments
  split
  · exact .nothing
  · split
    · exact .children h
    · exact .nothing

theorem Stays.elements {tag : String} {data : Twin NodeData} {views : Twin (List View)}
    (h : ∀ view ∈ (View.element tag data.dynamic views.dynamic).inside,
      Below engine functions cached root (active.map (·.dynamic)) view) :
    (Descent.elements active tag data views).Stays engine functions cached root := by
  unfold Descent.elements
  split
  · next hend _ hcontent =>
      split
      · exact .nothing
      · refine .children fun view hview => h view ?_
        rw [View.inside, hend, hcontent]
        exact hview
  · exact .nothing

end Descent

namespace Engine

/-- What two components render is below the dynamic one. -/
theorem descentOfComponents_stays {context : Twin TagContext} {id id' : ComponentId}
    {data data' : NodeData}
    (hview : Below engine functions cached root (active.map (·.dynamic)) (.component id' data'))
    (hstate : engine.function? state = functions)
    (h : engine.descentOfComponents active context ⟨engine.components id, engine.components id'⟩
      ⟨data, data'⟩ state = .ok descent middle) :
    descent.Stays engine functions cached root ∧ engine.function? middle = functions := by
  unfold descentOfComponents at h
  dsimp only at h
  split at h
  · cases h
    exact ⟨.nothing, hstate⟩
  · rcases engine.ensureRender_spec (Instance.create (engine.components id) data
        (active.map (·.static)) .static) rfl state with
      ⟨own, between, hensure, -, hkept⟩ | ⟨e, between, hensure, -⟩
    · rcases engine.ensureRender_spec (Instance.create (engine.components id') data'
          (active.map (·.dynamic)) .dynamic) rfl between with
        ⟨other, after, hensure', hother, hkept'⟩ | ⟨e, after, hensure', -⟩
      · simp only [bind, EStateM.bind, hensure, hensure'] at h
        cases hboth : prefetchBoth
            { Instance.create (engine.components id) data (active.map (·.static)) .static with
              render := some own }
            { Instance.create (engine.components id') data' (active.map (·.dynamic)) .dynamic with
              render := some other } with
        | mk result instances =>
            obtain ⟨static, dynamic⟩ := instances
            rw [hboth] at h
            cases result with
            | error e => cases h
            | ok =>
                dsimp only at h
                cases hroot : engine.render static with
                | error e =>
                    rw [hroot] at h
                    cases h
                | ok view =>
                    cases hroot' : engine.render dynamic with
                    | error e =>
                        rw [hroot, hroot'] at h
                        cases h
                    | ok view' =>
                        rw [hroot, hroot'] at h
                        cases h
                        rw [hkept.functions, hstate] at hother
                        refine ⟨?_, (hkept.trans hkept').functions.trans hstate⟩
                        rintro _ _ _ ⟨⟩ place hplace
                        cases List.mem_singleton.mp hplace
                        exact .component hview (rendering?_eq_some_iff.mpr
                          ⟨other, hother, (prefetchBoth_ok hboth).2, hroot'⟩)
      · simp only [bind, EStateM.bind, hensure, hensure', reduceCtorEq] at h
    · simp only [bind, EStateM.bind, hensure, reduceCtorEq] at h

/-- What is below two nodes is below the dynamic one, if that is not an async component. -/
theorem sight_stays {depth : Nat}
    (hundeferred : ∀ owner factory data,
      ¬ Below engine functions cached root owner (.deferred factory data))
    (hview : Below engine functions cached root (active.map (·.dynamic)) place.view.dynamic)
    (hstate : engine.function? state = functions)
    (h : engine.sight active depth place state = .ok descent middle) :
    descent.Stays engine functions cached root ∧ engine.function? middle = functions := by
  obtain ⟨⟨static, dynamic⟩, context⟩ := place
  cases depth with
  | zero => cases h
  | succ depth =>
      unfold sight at h
      dsimp only at h hview
      split at h
      · cases h
        exact ⟨.fragments fun view hchild => .inside hview hchild, hstate⟩
      · split at h
        · next htag =>
            subst htag
            cases h
            exact ⟨.elements fun view hchild => .inside hview hchild, hstate⟩
        · cases h
          exact ⟨.nothing, hstate⟩
      · exact descentOfComponents_stays hview hstate h
      · exact absurd hview (hundeferred _ _ _)
      · cases h
        exact ⟨.nothing, hstate⟩

theorem met_of_undeferred {depth : Nat} {view : Twin View}
    (h : ¬ Walk.BothDeferred view) : Walk.met engine depth view state = [view] := by
  obtain ⟨static, dynamic⟩ := view
  cases depth with
  | zero => rfl
  | succ depth =>
      unfold Walk.met
      dsimp only
      split
      · exact absurd ⟨_, _, _, _, rfl⟩ h
      · rfl

/-- The dynamic nodes that are compared are those of a tree, if it has no async components. -/
theorem Visits.all_below {path : List Nat} {i : Nat} {places : List Place} {log : List Visit}
    {result : Except RenderError State}
    (hundeferred : ∀ owner factory data,
      ¬ Below engine functions cached root owner (.deferred factory data))
    (h : engine.Visits active path i places state log result)
    (hplaces : ∀ place ∈ places,
      Below engine functions cached root (active.map (·.dynamic)) place.view.dynamic)
    (hstate : engine.function? state = functions) :
    (∀ path view context, .compared path view context ∈ log →
      ∃ owner, Below engine functions cached root owner view.dynamic) ∧
    ∀ after, result = .ok after → engine.function? after = functions := by
  -- A place itself, whatever becomes of it.
  have hcompared {active : Option (Twin Instance)} {place : Place} {state : State} {depth : Nat}
      {around : List Nat}
      (hview : Below engine functions cached root (active.map (·.dynamic)) place.view.dynamic)
      (path : List Nat) (view : Twin View) (context : Twin TagContext)
      (hmem : .compared path view context ∈ Walk.compareAll around place.context
        (Walk.met engine depth place.view state)) :
      ∃ owner, Below engine functions cached root owner view.dynamic := by
    rw [met_of_undeferred fun ⟨_, _, _, _, hboth⟩ => hundeferred _ _ _ (hboth ▸ hview)] at hmem
    cases List.mem_singleton.mp hmem
    exact ⟨_, hview⟩
  induction h with
  | nil =>
      refine ⟨fun _ _ _ hmem => absurd hmem List.not_mem_nil, ?_⟩
      rintro _ ⟨⟩
      exact hstate
  | leaf hsight hrest ih =>
      obtain ⟨hview, hplaces⟩ := List.forall_mem_cons.mp hplaces
      have hmiddle := (sight_stays hundeferred hview hstate hsight).2
      obtain ⟨hlater, hresult⟩ := ih hplaces hmiddle
      refine ⟨fun path view context hmem => ?_, hresult⟩
      rcases List.mem_append.mp hmem with hmem | hmem
      · exact hcompared hview path view context hmem
      · exact hlater path view context hmem
  | opens hsight hinner hrest ihinner ih =>
      obtain ⟨hview, hplaces⟩ := List.forall_mem_cons.mp hplaces
      obtain ⟨hstays, hmiddle⟩ := sight_stays hundeferred hview hstate hsight
      obtain ⟨hbelow, hafter⟩ := ihinner (hstays _ _ _ rfl) hmiddle
      obtain ⟨hlater, hresult⟩ := ih hplaces (hafter _ rfl)
      refine ⟨fun path view context hmem => ?_, hresult⟩
      rcases List.mem_append.mp hmem with hmem | hmem
      · rcases List.mem_append.mp hmem with hmem | hmem
        · exact hcompared hview path view context hmem
        · exact hbelow path view context hmem
      · rcases List.mem_cons.mp hmem with heq | hmem
        · cases heq
        · exact hlater path view context hmem
  | opensFails hsight hinner ih =>
      obtain ⟨hview, -⟩ := List.forall_mem_cons.mp hplaces
      obtain ⟨hstays, hmiddle⟩ := sight_stays hundeferred hview hstate hsight
      refine ⟨fun path view context hmem => ?_, nofun⟩
      rcases List.mem_append.mp hmem with hmem | hmem
      · exact hcompared hview path view context hmem
      · exact (ih (hstays _ _ _ rfl) hmiddle).1 path view context hmem
  | fails hsight hfinished =>
      obtain ⟨hview, -⟩ := List.forall_mem_cons.mp hplaces
      exact ⟨hcompared hview, nofun⟩

end Engine

/-- In a tree that has no markup without children, blanks make no difference. -/
theorem Regular.trimmed {path : List Nat} {i : Nat} {places : List Place} {visits : List Visit}
    {result : Except RenderError Engine.State}
    (hregular : Regular engine functions cached root)
    (hchildless : ∀ owner opening closing,
      ¬ Below engine functions cached root owner (.fragment opening closing []))
    (hvisits : engine.Visits active path i places state visits result)
    (hplaces : ∀ place ∈ places,
      Below engine functions cached root (active.map (·.dynamic)) place.view.dynamic)
    (hstate : engine.function? state = functions) (path : List Nat) (view : Twin View)
    (context : Twin TagContext) (hmem : .compared path view context ∈ visits) : view.Trimmed := by
  obtain ⟨owner, hview⟩ :=
    (hvisits.all_below hregular.undeferred hplaces hstate).1 path view context hmem
  rintro _ _ _ _ rfl
  exact absurd hview (hchildless _ _ _)

end Compared

namespace Walk

variable {engine : Engine} {functions : Component → Option RenderFunction}
  {cached : FactoryId → Option Resolution} {options : Options} {use : ComponentId} {data : NodeData}
  {static : View} {state : Engine.State} {tree : FoldedTree} {root : View} {last : Walk}

/-- The root of a tree can be treated first. -/
theorem Fit.start (hstate : engine.function? state = functions) :
    Fit engine functions cached root
      [⟨⟨static, root⟩, Program.empty.pushHole.1, ⟨.empty, .empty⟩⟩]
      (.start options ⟨static, root⟩ state) where
  planted := (start_tended options ⟨static, root⟩ state).planted
  forest := Program.empty.pushHole_adds.forest (.nil _ _)
  fresh _ _ := rfl
  below := List.forall_mem_singleton.mpr .root
  remembers := hstate
  sound := Synthesizer.new_sound _

/-- What a walk gives is the root entry that it made. -/
theorem root_of_result (h : last.result = .ok tree) : last.builder.root = some tree := by
  unfold result at h
  split at h
  · split at h
    · next found hfound =>
        cases h
        exact hfound
    · cases h
  · cases h

/-- Folding a component that succeeds makes an entry that stands for it. -/
theorem WorksOff.stands (hregular : Regular engine functions cached (.component use data))
    (hstate : engine.function? state = functions)
    (h : WorksOff engine Twin.Trimmed (start options ⟨static, .component use data⟩ state).frames
      (.start options ⟨static, .component use data⟩ state) last)
    (hresult : last.result = .ok tree) (slot : Id) :
    Pair.StandsFor engine functions cached none
      ⟨⟨static, .component use data⟩, slot, ⟨.empty, .empty⟩⟩ use data tree := by
  have hfit : Fit engine functions cached (.component use data) _
    (.start options ⟨static, .component use data⟩ state) := .start hstate
  change WorksOff engine Twin.Trimmed [.group Program.empty.pushHole.1 (.ofList
    [⟨⟨static, .component use data⟩, Program.empty.pushHole.1, ⟨.empty, .empty⟩⟩])] _ _ at h
  cases h with
  | cons hpairs hwork hrest =>
      cases hrest
      cases hwork
      change Treats engine Twin.Trimmed [⟨⟨static, .component use data⟩,
        Program.empty.pushHole.1, ⟨.empty, .empty⟩⟩] _ _ at hpairs
      cases hpairs with
      | leaf hseen hmeet hframes hrest =>
          cases hrest
          have hcarries := hfit.leaf hregular (hfit.encounters hregular hseen hmeet) hframes
          have hroot := root_of_result hresult
          dsimp only at hroot
          rw [hcarries.builder] at hroot
          cases hroot
      | node hseen hmeet hopened hinner hclose hrest =>
          cases hrest
          obtain ⟨calls, hcarries, hcomponent⟩ := hfit.node hregular
            (hfit.encounters hregular hseen hmeet) hopened (hinner.carries hregular) hclose
          obtain ⟨child, rfl, hstands⟩ := hcomponent use data rfl
          have hroot := root_of_result hresult
          dsimp only at hroot
          rw [hcarries.builder] at hroot
          cases hroot
          exact hstands

end Walk

/-- Folding leaves the components of an engine with the functions that they had. -/
theorem Engine.fold_function? {engine : Engine} {options : Options} {root : Twin View}
    {state last : State} {tree : FoldedTree}
    (h : engine.fold options root state = (.ok tree, last)) :
    engine.function? last = engine.function? state := by
  unfold fold at h
  split at h
  · next other walk hrun =>
      cases h
      obtain ⟨-, events, hreaches⟩ := Walk.leads_ok (Walk.run_reaches _) hrun
      exact hreaches.lined.1.functions
  · cases h

/-- Folding keeps the markup. A component of a regular tree that is folded is
    written with the plan as it is without one, unless there are too many steps to
    take now. -/
theorem Engine.html_folded {engine : Engine} {options : Options} {use : ComponentId} {props : Value}
    {state last after : State} {tree : FoldedTree} {html : String}
    {functions : Component → Option RenderFunction} {cached : FactoryId → Option Resolution}
    (hregular : Regular engine functions cached (.component use (.withProps props)))
    (hstate : engine.Remembers functions cached state)
    (htrimmed : ∀ visits last, engine.Visits none [] 1
        [⟨⟨.component use .empty, .component use (.withProps props)⟩, ⟨.empty, .empty⟩⟩] state
        visits (.ok last) →
      ∀ path view context, .compared path view context ∈ visits → view.Trimmed)
    (hfold : engine.foldComponent options use props state = (.ok tree, last))
    (hsmall : tree.Small)
    (hhtml : engine.html .baseline (.component use (.withProps props)) () state =
      (.ok html, (), after)) :
    engine.function? last = functions ∧ ∀ memory, engine.function? memory = functions →
      (engine.html tree.plan (.component use (.withProps props)) [] memory).1 = .ok html ∨
        (engine.html tree.plan (.component use (.withProps props)) [] memory).1 =
          .error .unfinished := by
  -- The markup without a plan.
  obtain ⟨visits, steps, hroot, -⟩ := Engine.rendition_of_html hhtml
  obtain ⟨answers, hwritten, hanswers, -⟩ := hroot.written
    (fun owner factory data hview => absurd hview (hregular.undeferred owner factory data))
    (List.forall_mem_singleton.mpr .root) hstate
  -- The walk works off its frames, and makes an entry.
  change engine.fold options ⟨.component use .empty, .component use (.withProps props)⟩ state =
    (.ok tree, last) at hfold
  have hlast := (fold_function? hfold).trans hstate.functions
  have hfolds := fold_folds (by rw [hfold]; nofun)
  rw [hfold] at hfolds
  obtain ⟨_ | walk, hconcludes, hresult⟩ := folds_iff_concludes.mp hfolds
  · cases hresult
  obtain ⟨log, hrounds⟩ := hconcludes.rounds
  obtain ⟨visits, ended, hvisits, rfl⟩ := hrounds.traverses
  have hworks := hrounds.worksOff rfl (Synthesizer.new_sound _) fun path view context hmem => by
    rcases List.mem_append.mp hmem with hmem | hmem
    · exact htrimmed visits ended hvisits path view context hmem
    · cases List.mem_singleton.mp hmem
  have hstands := hworks.stands hregular hstate.functions hresult.symm 0 html
    ⟨answers, steps, hwritten, hanswers⟩
  -- Its entry is what the component is written with.
  obtain ⟨inst, view, hrender, hserves⟩ := hstands.serves hsmall none
  exact ⟨hlast, fun memory hmemory => html_of_serves hstands.name hrender hmemory hserves⟩

/-- A function that returns an expression right away, checked node by node. -/
theorem RenderFunction.Tractable.of_return {function : RenderFunction} {name : Option String}
    {params : List String} {argument : Option Tree}
    (htree : function.tree = .mk (.function name params [.mk (.ret argument)]))
    (hplain : function.arena.allTo Script.Node.isPlain function.arena.size function.root = true)
    (hdata : function.arena.allTo Script.Node.writesData function.arena.size function.root = true) :
    function.Tractable where
  plain := Arena.allTo_sound (fun _ h => h) hplain
  data := Arena.allTo_sound (fun _ => Script.Node.writesData_sound) hdata
  names := by
    intro name' params' body hbody helper _ binding init hmem
    cases htree.symm.trans hbody
    cases List.mem_singleton.mp hmem

namespace Welcome

/-- A greeting by name. -/
def greets : RenderFunction where
  source := "return _c(\"p\", [_v(\"hello \"), _v(name)])"
  arena := ⟨#[.ident "_c", .str "p", .ident "_v", .str "hello ", .call 2 [3], .ident "_v",
    .ident "name", .call 5 [6], .array [4, 7], .call 0 [1, 8], .ret (some 9),
    .function none [] [10]]⟩
  root := 11
  wasRead := Script.parseFunction_of_nodes (by decide +kernel)

/-- A text, and a card that is given the name. -/
def welcomes : RenderFunction where
  source := "return _c(\"div\", [_v(\"hi\"), _c(\"card\", \x7bprops: \x7bname: name\x7d\x7d)])"
  arena := ⟨#[.ident "_c", .str "div", .ident "_v", .str "hi", .call 2 [3], .ident "_c",
    .str "card", .ident "name", .object [("name", 7)], .object [("props", 8)], .call 5 [6, 9],
    .array [4, 10], .call 0 [1, 11], .ret (some 12), .function none [] [13]]⟩
  root := 14
  wasRead := Script.parseFunction_of_nodes (by decide +kernel)

/-- A card that greets. -/
def card : Component := { Component.named "card" with render := some greets }

/-- A page with the card. -/
def page : Component :=
  { Component.named "page" with
    components := [("card", .component 1)]
    render := some welcomes }

/-- An engine for the page and the card. -/
def engine : Engine :=
  { Walk.engineOf page with components := fun id => if id = 0 then page else card }

/-- What the page is given, and passes on to the card. -/
def props : Value := .object [("name", .str "ada")]

/-- The page of a request. -/
def pageUse : Instance := .create page (.withProps props) none .dynamic

/-- The card on that page. -/
def cardUse : Instance := .create card (.withProps props) (some pageUse) .dynamic

theorem page_runs : Evaluator.runTo (pageUse.setting engine) (Evaluator.maxDepth - 2)
    welcomes.tree =
      .ok (.element "div" .empty [.text "hi" false, .component 1 (.withProps props)]) :=
  rfl

theorem card_runs : Evaluator.runTo (cardUse.setting engine) (Evaluator.maxDepth - 2)
    greets.tree = .ok (.element "p" .empty [.text "hello " false, .text "ada" false]) :=
  rfl

theorem greets_tractable : greets.Tractable :=
  .of_return rfl (by decide +kernel) (by decide +kernel)

theorem welcomes_tractable : welcomes.Tractable :=
  .of_return rfl (by decide +kernel) (by decide +kernel)

variable {cached : FactoryId → Option Resolution} {owner : Option Instance} {view : View}

theorem render_of_rendering? {id : ComponentId} {data : NodeData} {inst : Instance}
    (h : engine.rendering? (engine.function? engine.initial) .dynamic owner (engine.components id)
      data = some (inst, view)) :
    ∃ function, engine.function? engine.initial (engine.components id) = some function ∧
      inst = { Instance.create (engine.components id) data owner .dynamic with
        render := some function } ∧ engine.render inst = .ok view := by
  refine (Engine.rendering?_of_nil ?_).mp h
  unfold engine
  dsimp only
  split <;> rfl

/-- The nodes of the page. -/
inductive Shown : Option Instance → View → Prop where
  | root : Shown none (.component 0 (.withProps props))
  | page : Shown (some pageUse)
      (.element "div" .empty [.text "hi" false, .component 1 (.withProps props)])
  | heading : Shown (some pageUse) (.text "hi" false)
  | use : Shown (some pageUse) (.component 1 (.withProps props))
  | card : Shown (some cardUse)
      (.element "p" .empty [.text "hello " false, .text "ada" false])
  | hello : Shown (some cardUse) (.text "hello " false)
  | name : Shown (some cardUse) (.text "ada" false)

theorem shown_of_below
    (h : Below engine (engine.function? engine.initial) cached (.component 0 (.withProps props))
      owner view) : Shown owner view := by
  induction h with
  | root => exact .root
  | inside h hchild ih =>
      cases ih with
      | page =>
          rcases List.mem_pair.mp hchild with rfl | rfl
          · exact .heading
          · exact .use
      | card =>
          rcases List.mem_pair.mp hchild with rfl | rfl
          · exact .hello
          · exact .name
      | root | heading | use | hello | name => cases hchild
  | component h hroot ih =>
      obtain ⟨function, hfunction, rfl, hrender⟩ := render_of_rendering? hroot
      cases ih with
      | root =>
          cases hfunction
          cases hrender
          exact .page
      | use =>
          cases hfunction
          cases hrender
          exact .card
  | deferredComponent h hcached hroot ih => cases ih
  | deferredView h hcached ih => cases ih
  | deferredViews h hcached hview ih => cases ih

theorem regular :
    Regular engine (engine.function? engine.initial) cached (.component 0 (.withProps props)) where
  accepts _ := rfl
  named := Component.eq_of_name_of_two (by decide)
  undeferred owner factory data h := by cases shown_of_below h
  unplaced owner use data h := by cases shown_of_below h <;> rfl
  escaped owner content h := by cases shown_of_below h
  tractable owner use data inst view own h hroot hown := by
    obtain ⟨function, hfunction, rfl, hrender⟩ := render_of_rendering? hroot
    cases shown_of_below h with
    | root =>
        cases hfunction
        cases hown
        cases hrender
        exact ⟨welcomes_tractable, page_runs⟩
    | use =>
        cases hfunction
        cases hown
        cases hrender
        exact ⟨greets_tractable, card_runs⟩

theorem trimmed {visits : List Visit} {last : Engine.State}
    (h : engine.Visits none [] 1 [⟨⟨.component 0 .empty, .component 0 (.withProps props)⟩,
      ⟨.empty, .empty⟩⟩] engine.initial visits (.ok last)) (path : List Nat) (view : Twin View)
    (context : Twin TagContext) (hmem : .compared path view context ∈ visits) : view.Trimmed := by
  have hregular : Regular engine (engine.function? engine.initial) (fun _ => none)
      (.component 0 (.withProps props)) := regular
  have hchildless (owner : Option Instance) (opening closing : String)
      (h : Below engine (engine.function? engine.initial) (fun _ => none)
        (.component 0 (.withProps props)) owner (.fragment opening closing [])) : False := by
    cases shown_of_below h
  exact hregular.trimmed hchildless h (List.forall_mem_singleton.mpr .root) rfl path view context
    hmem

/-- The page has one entry below it, for the card, and is written with the plan. -/
theorem folds : ∃ tree last,
    engine.foldComponent .standard 0 props engine.initial = (.ok tree, last) ∧
    tree.children.map (·.children.length) = [0] ∧
    ((engine.html tree.plan (.component 0 (.withProps props)) [] last).1.toOption).isSome := by
  have hfolds : (engine.foldComponent .standard 0 props engine.initial).1.toOption.any (fun tree =>
      decide (tree.children.map (·.children.length) = [0]) &&
        (engine.html tree.plan (.component 0 (.withProps props)) []
          (engine.foldComponent .standard 0 props engine.initial).2).1.toOption.isSome) = true := by
    decide +kernel
  cases hresult : engine.foldComponent .standard 0 props engine.initial with
  | mk result last =>
      rw [hresult] at hfolds
      cases result with
      | error e => cases hfolds
      | ok tree =>
          obtain ⟨hchildren, hserved⟩ := Bool.and_eq_true_iff.mp hfolds
          exact ⟨tree, last, rfl, of_decide_eq_true hchildren, hserved⟩

end Welcome

/-- The page is written as before, with the static parts of it folded. -/
theorem Engine.html_folded_welcome : ∃ tree last,
    Welcome.engine.foldComponent .standard 0 Welcome.props Welcome.engine.initial =
      (.ok tree, last) ∧
    (Welcome.engine.html tree.plan (.component 0 (.withProps Welcome.props)) [] last).1 =
      .ok "<div>hi<p>hello ada</p></div>" := by
  obtain ⟨tree, last, hfold, hchildren, hserved⟩ := Welcome.folds
  obtain ⟨after, hhtml⟩ := @html_of_toOption Welcome.engine
    (.component 0 (.withProps Welcome.props)) Welcome.engine.initial
    "<div>hi<p>hello ada</p></div>" (by decide +kernel)
  have hsmall : tree.Small := by
    obtain ⟨child, hchild, hnone⟩ := List.map_eq_singleton_iff.mp hchildren
    intro entry hentry
    cases hentry with
    | self =>
        rw [hchild]
        exact Nat.le_of_ble_eq_true rfl
    | child hmem hbelow =>
        rw [hchild] at hmem
        cases List.mem_singleton.mp hmem
        cases hbelow with
        | self => exact hnone ▸ Nat.zero_le _
        | child hmem => exact absurd hmem (List.length_eq_zero_iff.mp hnone ▸ List.not_mem_nil)
  have hremembers : Welcome.engine.Remembers (Welcome.engine.function? Welcome.engine.initial)
      (fun id => (Welcome.engine.initial.factories id).cached) Welcome.engine.initial :=
    ⟨rfl, fun _ => rfl⟩
  obtain ⟨hlast, hsame⟩ := html_folded Welcome.regular hremembers
    (fun visits last hvisits => Welcome.trimmed hvisits) hfold hsmall hhtml
  refine ⟨tree, last, hfold, (hsame last hlast).resolve_right fun herror => ?_⟩
  rw [herror] at hserved
  cases hserved

end RenderFold
