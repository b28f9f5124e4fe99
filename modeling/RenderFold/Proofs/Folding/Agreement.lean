import RenderFold.Proofs.Folding.Repeats
import RenderFold.Proofs.Folding.Soundness
import RenderFold.Proofs.Html.Serialized

/-!
# When Both Passes Agree

A component that is used in the same way in both passes, in a tree in which
nothing has to be waited for, folds completely. If it can be written at all,
folding it succeeds, and what is left is one literal with the markup that was
written.

## Theorems

* `Walk.start_moves`: A component that is compared with itself.
* `Engine.fold_both`: Folding a component whose passes agree.
-/

namespace RenderFold

open Script (Id)

namespace Walk

variable {engine : Engine} {functions : Component → Option RenderFunction}
  {cached : FactoryId → Option Resolution} {options : Options} {state : Engine.State}

/-- A walk over a component that is compared with itself comes to its end,
    and what is left is the component as a literal. -/
theorem start_moves {id : ComponentId} {data : NodeData} {inst : Instance} {root : View}
    {inner : List Answer} {cost : Nat} (hcomments : options.foldComments = true)
    (hhoists : options.hoistStyles = true) (hstate : engine.Remembers functions cached state)
    (hnone : (engine.components id).prefetch = [])
    (hrendering : engine.rendering? functions .dynamic none (engine.components id) data =
      some (inst, root))
    (hroot : RepeatAll engine functions cached (some inst)
      (TagContext.empty.nest data (engine.components id).scopeId) [root] inner cost)
    (hcost : cost ≤ maxChain) :
    ∃ moves pair events last text tree,
      Moves engine (.start options (.both (.component id data)) state) moves
        (.compared pair none :: events) last ∧ moves ≤ 2 * (cost + 1) + 1 ∧
      (Event.answers events).map Settled.static = inner ∧ last.frames = [] ∧
      pair.view.static = .component id data ∧ pair.context.static = .empty ∧
      last.program.findings.literal? pair.slot = some text ∧
      tree.IsLiteral (engine.components id).name text ∧ last.builder.root = some tree := by
  let pair : Pair := ⟨.both (.component id data), Program.empty.pushHole.1, .both .empty⟩
  let start : Walk := .start options (.both (.component id data)) state
  let entering : Walk := { start with frames := [.group pair.slot ⟨[pair.slot], []⟩] }
  have hpoised : Poised engine functions cached none entering :=
    { comments := hcomments
      hoists := hhoists
      active := rfl
      remembers := hstate
      sound := Synthesizer.new_sound _
      filled := fun _ h => by cases h }
  -- The root is the first pair to be compared, and everything else is below it.
  have hleads := compareComponents_settles pair hnone hrendering hroot hcost hpoised rfl
  cases hwork : compareComponents engine pair (.both (engine.components id)) (.both data)
      entering with
  | error e after => exact (leads_error hleads hwork).elim
  | ok found after =>
      obtain ⟨rfl, moves, events, last, hmoves, hless, hanswers, hframes, -, text, tree, htext,
        hliteral, hbuilder⟩ := leads_ok hleads hwork
      have hcompare : compare engine maxChain pair entering = .ok none after := hwork
      -- The outermost frame is closed last, and has nothing left to fold.
      have hfinish : finish engine (.group pair.slot ⟨[pair.slot], []⟩) { last with frames := [] } =
          .ok () { last with frames := [] } := by
        have hself := last.program.foldGroup_self pair.slot
        rw [finish, onProgram]
        exact congrArg (fun program => EStateM.Result.ok () { last with program, frames := [] }) hself
      have hclose : Moves engine last 1 [] { last with frames := [] } :=
        .finish hframes rfl hfinish (.nil _)
      have hopened : start.frames = [.group pair.slot (.ofList [pair])] := rfl
      have hnext : (Frame.group pair.slot (.ofList [pair])).pairs.next? =
          some (pair, ⟨[pair.slot], []⟩) := rfl
      have hrun := Moves.compare hopened hnext hcompare (hmoves.trans hclose)
      have hkind : pair.view.static.kind = "Component" := rfl
      rw [trail_of_kind (by rw [hkind]; decide), List.append_nil] at hrun
      refine ⟨_, pair, events, _, text, tree, hrun, by omega, hanswers, rfl, rfl, rfl, htext,
        hliteral, ?_⟩
      exact congrArg Builder.root hbuilder

/-- A walk that comes to its end in as many moves as it may make gives the
    tree that it has built. -/
theorem Moves.fold {root : Twin View} {moves : Nat} {events : List Event} {last : Walk}
    {tree : FoldedTree} (h : Moves engine (.start options root state) moves events last)
    (hmoves : moves < maxSteps) (hframes : last.frames = [])
    (hroot : last.builder.root = some tree) :
    engine.fold options root state = (.ok tree, last.engine) := by
  have hget (walk : Walk) : (get : Walking Walk) walk = .ok walk walk := rfl
  obtain ⟨-, hpause⟩ := h.reaches .start rfl
  -- One more step finds that no frame is left.
  obtain ⟨more, hmore⟩ := Nat.exists_eq_add_of_lt hmoves
  have hadvance : advance engine (.start options root state) = .ok .done last := by
    have hgoing : (Walk.start options root state).pause = .going := rfl
    simp only [advance, bind, EStateM.bind, hget, hgoing]
    rw [hmore, Nat.add_assoc, h.advanceFor, Walk.advanceFor]
    simp only [bind, EStateM.bind, hget, hframes]
    rfl
  have hresult : last.result = .ok tree := by
    simp only [result, hpause, hframes, hroot]
  obtain ⟨pauses, hpauses⟩ : ∃ pauses, maxSteps = pauses + 1 := ⟨_, rfl⟩
  have hrun : run engine (.start options root state) = .ok tree last := by
    rw [run, hpauses, runFor]
    simp only [bind, EStateM.bind, hadvance, hget, hresult]
    rfl
  rw [Engine.fold, hrun]

end Walk

/-- A component that is used in the same way in both passes folds completely
    if no component in its tree has hooks, all async components have resolved
    and the engine refuses no function. If it can be written, folding it before
    or after that gives a single entry, whose function returns the markup that
    was written. Writing the component with this entry gives the same markup
    once more. -/
theorem Engine.fold_both {engine : Engine} {options : Options} {use : ComponentId} {data : NodeData}
    {state after : State} {functions : Component → Option RenderFunction}
    {cached : FactoryId → Option Resolution} {html : String}
    (hrefuses : ∀ function, engine.refuses function = none)
    (hcomments : options.foldComments = true) (hhoists : options.hoistStyles = true)
    (hquiet : Quiet engine functions cached (.component use data))
    (hstate : engine.Remembers functions cached state)
    (hhtml : engine.html .baseline (.component use data) () state = (.ok html, (), after)) :
    engine.Remembers functions cached after ∧
    ∀ later, engine.Remembers functions cached later →
      ∃ tree last, engine.fold options ⟨.component use data, .component use data⟩ later =
          (.ok tree, last) ∧
        tree.isStatic = true ∧ tree.children = [] ∧
        tree.function.tree = Script.Tree.literal html ∧
        ∀ memory, engine.html tree.plan (.component use data) [] memory =
          (.ok html, [], memory) := by
  obtain ⟨answers, steps, hwritten, hanswers, hsteps, hafter⟩ :=
    engine.html_written hquiet hstate hhtml
  refine ⟨hafter, fun later hlater => ?_⟩
  have hbelow : ∀ view ∈ [View.component use data],
      Below engine functions cached (.component use data) none view :=
    List.forall_mem_singleton.mpr .root
  -- In the static pass the tree is written in the same way.
  have hstatic := hwritten.static_pass hquiet hbelow hanswers
  have hnone := hquiet.component _ _ _ .root
  obtain ⟨inst, root, cost, content, hrendering, hinner, rfl⟩ : ∃ inst root cost content,
      engine.rendering? functions .dynamic none (engine.components use) data = some (inst, root) ∧
      Written engine functions .dynamic id (some inst)
        (TagContext.empty.nest data (engine.components use).scopeId) [root] answers content cost ∧
      steps = cost + 2 := by
    cases hwritten with
    | component hrendering hinner hrest =>
        cases hrest
        exact ⟨_, _, _, _, hrendering, by rwa [List.append_nil], rfl⟩
  -- What can be written can be compared with itself, at a cost that the limit on
  -- writing bounds.
  have hroot := hinner.repeats hquiet
    (List.forall_mem_singleton.mpr (Below.root.component hrendering)) hanswers
  have hcost : cost ≤ Walk.maxChain := by
    rw [Walk.maxChain]
    omega
  obtain ⟨moves, pair, events, last, text, tree, hmoves, hless, hinner', hframes, hview, hcontext,
    htext, hliteral, hbuilder⟩ :=
    Walk.start_moves hcomments hhoists hlater hnone hrendering hroot hcost
  have hfold := hmoves.fold (by rw [Walk.maxSteps]; omega) hframes hbuilder
  -- The text that is kept is what the static side of the root is written as.
  obtain ⟨hreaches, -⟩ := hmoves.reaches .start rfl
  obtain ⟨mine, others, hevents, hfolds⟩ :=
    hreaches.recorded.folds pair.slot text htext [] pair none events rfl rfl
  obtain ⟨cost', hkept⟩ := hfolds.written_static
  have hsame : text = html := by
    rw [hlater.functions, hcontext, List.map_singleton, hview] at hkept
    -- Both take all the answers, so they are the same by determinism.
    have hall : (Event.answers mine).map Settled.static ++
        (Event.answers others).map Settled.static = answers ++ [] := by
      rw [← List.map_append, ← Event.answers_append, ← hevents, hinner', List.append_nil]
    exact (hkept.unique hstatic hall).2
  subst hsame
  exact ⟨tree, last.engine, hfold, hliteral.isStatic, hliteral.children, hliteral.function,
    hliteral.html hnone (hrefuses _) data⟩

/-- A page that uses an async component. -/
def awaiting : Component :=
  { Component.named "page" with
    components := [("later", .deferred 0)]
    render := (RenderFunction.compile "return _c(\"p\", [_c(\"later\")])").toOption }

/-- An engine for the page in which the async component has resolved. -/
def Engine.awaited : Engine :=
  { Walk.engineOf awaiting with factories := fun _ => .resolved (.view (.text "ada" false)) }

theorem Engine.fold_both_awaited : ∃ tree last,
    awaited.fold .standard ⟨.component 0 .empty, .component 0 .empty⟩ awaited.initial =
      (.ok tree, last) ∧
    tree.isStatic = true ∧ tree.function.tree = Script.Tree.literal "<p>ada</p>" := by
  have hquiet : Quiet awaited (awaited.function? awaited.initial)
      (fun _ => some (.view (.text "ada" false))) (.component 0 .empty) :=
    ⟨fun _ _ _ _ => rfl, fun _ _ _ _ => ⟨_, rfl, fun _ h => nomatch h⟩⟩
  have hremembers : awaited.Remembers (awaited.function? awaited.initial)
      (fun _ => some (.view (.text "ada" false))) awaited.initial := ⟨rfl, fun _ => rfl⟩
  have hwritten : (awaited.html .baseline (.component 0 .empty) () awaited.initial).1.toOption =
      some "<p>ada</p>" := by decide +kernel
  obtain ⟨after, hhtml⟩ := Engine.html_of_toOption hwritten
  have hcomments : Options.standard.foldComments = true := rfl
  have hhoists : Options.standard.hoistStyles = true := rfl
  obtain ⟨-, hfolds⟩ := Engine.fold_both (fun _ => rfl) hcomments hhoists hquiet hremembers hhtml
  obtain ⟨tree, last, hfold, hstatic, -, hfunction, -⟩ := hfolds awaited.initial hremembers
  exact ⟨tree, last, hfold, hstatic, hfunction⟩

end RenderFold
