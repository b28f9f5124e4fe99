import RenderFold.Proofs.Folding.Gathered

/-!
# Entries That Run

The function of an entry can be run in place of the own function of the
instance that its component had. The function that a component has on its own
was run when the component was entered, and a rewritten function is run before
it is accepted. A literal is not run at all. It could not fail, but the engine
may refuse it, and then the entry has a function that the engine does not run.

An instance that a function was tried out on has its own function afterwards.

## Main definitions

* `Walk.Armed`: Components run on their own, and so will those that are waited
  for.
* `Walk.Decided`: What the function of an entry can be.

## Theorems

* `Walk.Reaches.armed`: All components run on their own.
* `Engine.entries_run`: An entry runs unless it is a literal and refused.
-/

namespace RenderFold

/-- The static instance of a component has the function that the component has
    on its own, and this function can be run. -/
structure Boundary.Runs (engine : Engine) (boundary : Boundary) : Prop where
  own : boundary.inst.render = some boundary.own
  renders : (engine.render boundary.inst).isOk

namespace Engine

variable {engine : Engine}

/-- Hooks do not change the function of an instance. -/
theorem prefetchBoth_render (first second : Instance) :
    (prefetchBoth first second).2.1.render = first.render := by
  have hmerge : ∀ (results : List Value) (inst : Instance),
      (results.foldl Instance.merge inst).render = inst.render := by
    intro results
    induction results with
    | nil => exact fun _ => rfl
    | cons result rest ih => exact fun inst => ih (inst.merge result)
  have hleft (inst : Instance) (settled : Bool) :
      (leftBehind inst settled (prefetch inst).value).render = inst.render := by
    unfold leftBehind prefetch Delayed.map
    dsimp only
    cases (Delayed.joinAll (inst.component.prefetch.map fun hook => hook ⟨inst.pass, inst.scope⟩)).value with
    | error message => rfl
    | ok results =>
        dsimp only
        split
        · exact hmerge results inst
        · rfl
  exact hleft first _

/-- A literal can be run unless the engine refuses it. -/
theorem validate_literal {inst : Instance} {function : RenderFunction} {text : String}
    (htree : function.tree = .literal text) :
    (engine.validate inst function).isOk ↔ engine.refuses function = none := by
  rw [validate_eq]
  cases hrefuses : engine.refuses function with
  | none =>
      rw [render_literal _ hrefuses rfl htree]
      exact iff_of_true rfl rfl
  | some reason =>
      have hrender : engine.render { inst with render := some function } =
          .error (.typeError (.refused reason)) := by
        unfold render
        dsimp only
        rw [hrefuses]
      rw [hrender]
      exact iff_of_false Bool.false_ne_true (Option.some_ne_none reason)

end Engine

namespace Synthesizer

variable {engine : Engine} {synthesizer : Synthesizer} {arena : Script.Arena} {root : Script.Id}
  {inst : Instance} {function : RenderFunction}

theorem compile_validates (source : String) :
    (synthesizer.compile source).2.validates = synthesizer.validates := rfl

theorem synthesize_validates :
    (synthesizer.synthesize engine arena root inst).2.validates = synthesizer.validates := by
  have hcompile := @compile_validates synthesizer (arena.print root)
  unfold synthesize
  split
  · next hread => rwa [hread] at hcompile
  · next hread => rwa [hread] at hcompile

/-- A synthesizer that runs functions accepts those that run. -/
theorem validated (hvalidates : synthesizer.validates = true)
    (haccepted : (synthesizer.synthesize engine arena root inst).1 = some function) :
    (engine.validate inst function).isOk := by
  have hcompile := (@compile_validates synthesizer (arena.print root)).trans hvalidates
  unfold synthesize at haccepted
  split at haccepted
  · cases haccepted
  · next hread =>
      rw [hread] at hcompile
      dsimp only at haccepted hcompile
      rw [hcompile, Bool.not_true, Bool.false_or] at haccepted
      split at haccepted
      · next hruns =>
          cases haccepted
          exact hruns
      · cases haccepted

end Synthesizer

/-- A component runs with its own function put in place of itself. -/
theorem Boundary.Runs.validate {engine : Engine} {boundary : Boundary} (h : boundary.Runs engine) :
    (engine.validate boundary.inst boundary.own).isOk := by
  rw [Engine.validate_eq, ← h.own]
  exact h.renders

namespace Walk

variable {engine : Engine} {start walk after : Walk} {events : List Event}
  {out : Option Suspension} {pending : Pending} {frame : Frame} {rest : List Frame}

/-- The components that a walk is inside of run on their own, and a component that is waited for
    has its own function. -/
structure Armed (engine : Engine) (out : Option Suspension) (walk : Walk) : Prop where
  inside : ∀ boundary ∈ walk.boundaries, boundary.Runs engine
  out : ∀ pending, out = some (.component pending) → pending.Ready
  parked : ∀ pending, walk.pause = .parked (.component pending) → pending.Ready

theorem ready_of_none (pending : Pending)
    (h : (none : Option Suspension) = some (.component pending)) : pending.Ready := by
  cases h

theorem Stays.runs (h : Stays walk after) (hruns : ∀ boundary ∈ walk.boundaries, boundary.Runs engine) :
    ∀ boundary ∈ after.boundaries, boundary.Runs engine := by
  rw [h.boundaries_eq]
  exact hruns

theorem Enters.runs (h : Enters engine walk pending after) (hready : pending.Ready)
    (hruns : ∀ boundary ∈ walk.boundaries, boundary.Runs engine) :
    ∀ boundary ∈ after.boundaries, boundary.Runs engine := by
  obtain ⟨root, -, hstatic, -, -⟩ := h.frames
  obtain ⟨rootSlot, hboundaries⟩ := h.boundaries_eq
  rw [hboundaries]
  refine List.forall_mem_cons.mpr ⟨⟨hready, ?_⟩, hruns⟩
  change (engine.render pending.instances.static).isOk
  rw [hstatic]
  rfl

/-- What a component waits for does not take its function away. -/
theorem await_ready {resolved : Except RenderError Resolved} {continuation : Continuation}
    {state next : Engine.State} (hready : pending.Ready)
    (h : (Suspension.component pending).await engine state = (resolved, continuation, next)) :
    ∃ pending, continuation = .component pending ∧ pending.Ready := by
  cases h
  exact ⟨_, rfl, (Engine.prefetchBoth_render _ _).trans hready⟩

/-- A pair is compared. A component that is entered has been rendered, and one that is to be
    waited for has its own function. -/
theorem Armed.compared {pair : Pair} {left : Pairs} {outcome : Option (Option Suspension)}
    (h : Armed engine none walk) (hpause : walk.pause = .going)
    (hframes : walk.frames = frame :: rest)
    (hleaves : Leaves (compare engine maxChain pair
      { walk with frames := frame.withPairs left :: rest }) outcome after) :
    Armed engine outcome.join (after.handingOut outcome.join) := by
  have hruns : ∀ boundary ∈ boundaries { walk with frames := frame.withPairs left :: rest },
      boundary.Runs engine := by
    rw [boundaries_withPairs hframes]
    exact h.inside
  have hleads := (compare_steady maxChain pair).leads
    (@compare_arrives engine maxChain pair { walk with frames := frame.withPairs left :: rest })
  cases hleaves with
  | @ok found _ hwork =>
      obtain ⟨harrives, hsteady⟩ := leads_ok hleads hwork
      have hparked (pending : Pending) :
          (after.handingOut found).pause ≠ .parked (.component pending) := by
        cases found with
        | none =>
            intro hparked
            cases (hsteady.trans hpause).symm.trans hparked
        | some suspension => exact Pause.noConfusion
      refine ⟨?_, ?_, fun pending hpending => absurd hpending (hparked pending)⟩
      · cases harrives with
        | stays hstays _ => cases found <;> exact hstays.runs hruns
        | enters henters hready => exact henters.runs hready hruns
      · cases harrives with
        | stays _ hout => cases found <;> exact hout
        | enters _ _ => exact ready_of_none
  | error hwork =>
      obtain ⟨hstays, hsteady⟩ := leads_error hleads hwork
      refine ⟨hstays.runs hruns, ready_of_none, fun pending hparked => ?_⟩
      cases (hsteady.trans hpause).symm.trans hparked

/-- A frame is closed. -/
theorem Armed.finished (h : Armed engine none walk) (hsound : walk.synthesizer.Sound)
    (hpause : walk.pause = .going) (hframes : walk.frames = frame :: rest) :
    Leads (finish engine frame) { walk with frames := rest }
      (fun _ after => Armed engine none after) fun _ => False := by
  have hcloses := @finish_closes engine { walk with frames := rest } hsound frame
  refine leads_mono ((finish_steady frame).leads hcloses) (fun _ after hafter => ?_) fun _ h => h.1
  obtain ⟨hclosed, hsteady⟩ := hafter
  refine ⟨fun boundary hboundary => h.inside boundary ?_, ready_of_none,
    fun pending hparked => ?_⟩
  · rw [boundaries, hclosed.frames] at hboundary
    exact boundaries_of_cons hframes hboundary
  · cases (hsteady.trans hpause).symm.trans hparked

/-- A walk goes on, at a component or at what async components resolved to. -/
theorem Armed.resumed {suspension : Suspension} {resolved : Resolved} {continuation : Continuation}
    {state : Engine.State} {outcome : Option Unit} (h : Armed engine (some suspension) walk)
    (hawait : suspension.await engine walk.engine = (.ok resolved, continuation, state))
    (hleaves : Leaves (resume engine continuation resolved { walk with engine := state })
      outcome after) : Armed engine none after := by
  have hkept (hpause : after.pause = .going ∨ after.pause = walk.pause) (pending : Pending)
      (hparked : after.pause = .parked (.component pending)) : pending.Ready := by
    rcases hpause with hgoing | hsame
    · cases hgoing.symm.trans hparked
    · exact h.parked pending (hsame.symm.trans hparked)
  cases suspension with
  | component pending =>
      obtain ⟨pending, rfl, hready⟩ := await_ready (h.out pending rfl) hawait
      have hleads := @resume_enters engine pending resolved { walk with engine := state }
      cases hleaves with
      | ok hwork =>
          obtain ⟨henters, hgoing⟩ := leads_ok hleads hwork
          exact ⟨henters.runs hready h.inside, ready_of_none, hkept (.inl hgoing)⟩
      | error hwork =>
          obtain ⟨hsame, hpause⟩ := leads_error hleads hwork
          exact ⟨hsame.stays.runs h.inside, ready_of_none, hkept hpause⟩
  | deferred pair data asked =>
      have hcontinuation : continuation = .deferred pair data := by
        unfold Suspension.await at hawait
        dsimp only at hawait
        split at hawait
        · cases hawait
          rfl
        · cases hawait
      subst hcontinuation
      have hleads := @resume_deferred_arrives engine pair data resolved { walk with engine := state }
      cases hleaves with
      | ok hwork =>
          obtain ⟨out, harrives, hparked⟩ := leads_ok hleads hwork
          cases harrives with
          | stays hstays hout =>
              exact ⟨hstays.runs h.inside, ready_of_none,
                fun pending hpending => hout pending (hparked _ hpending)⟩
          | enters henters hready =>
              exact ⟨henters.runs hready h.inside, ready_of_none,
                fun pending hpending => by cases hparked _ hpending⟩
      | error hwork =>
          obtain ⟨hstays, hpause⟩ := leads_error hleads hwork
          exact ⟨hstays.runs h.inside, ready_of_none, hkept hpause⟩

theorem start_armed (options : Options) (root : Twin View) (state : Engine.State) :
    Armed engine none (.start options root state) :=
  ⟨fun _ hboundary => absurd hboundary List.not_mem_nil, ready_of_none,
    fun _ hparked => by cases hparked⟩

/-- The components that a walk is inside of run on their own, in every state that it can be
    in. -/
theorem Reaches.armed (h : Reaches engine start events out walk) (haligned : Aligned engine start)
    (hstart : Armed engine none start) : Armed engine out walk := by
  -- By induction on the moves.
  induction h with
  | start => exact hstart
  | compare _ hpause hframes _ hleaves ih => exact ih.compared hpause hframes hleaves
  | finish h hpause hframes _ hleaves ih =>
      have hsound := (h.invariant (aligned_invariant engine) haligned).synthesizer
      have hleads := ih.finished hsound hpause hframes
      cases hleaves with
      | ok hwork =>
          have hafter := leads_ok hleads hwork
          exact hafter
      | error hwork => exact (leads_error hleads hwork).elim
  | @handOut _ walk suspension _ hpause ih =>
      refine ⟨ih.inside, fun pending hout => ?_, fun pending hparked => by cases hparked⟩
      cases hout
      exact ih.parked pending hpause
  | resume _ hawait hleaves ih => exact ih.resumed hawait hleaves
  | fail _ _ ih => exact ⟨ih.inside, ready_of_none, ih.parked⟩

/-- What the function of an entry can be: a literal, and then the entry is static, or the own
    function of the component, or a rewritten function that was accepted for the instance. -/
inductive Decided (engine : Engine) (synthesizer : Synthesizer) (boundary : Boundary) :
    RenderFunction → Bool → Prop where
  | literal {function text} (htree : function.tree = .literal text) :
      Decided engine synthesizer boundary function true
  | own : Decided engine synthesizer boundary boundary.own false
  | rewritten {function} (arena : Script.Arena) (root : Script.Id)
      (haccepted : (synthesizer.synthesize engine arena root boundary.inst).1 = some function) :
      Decided engine synthesizer boundary function false

/-- The innermost entry is closed with a function that was decided on. -/
def Decides (engine : Engine) (boundary : Boundary) (walk after : Walk) : Prop :=
  ∃ function isStatic stays,
    after.builder = walk.builder.close boundary.slot function isStatic stays ∧
    Decided engine walk.synthesizer boundary function isStatic

theorem leaveStatic_decides (hsound : walk.synthesizer.Sound) (boundary : Boundary)
    (text : String) :
    Leads (leaveStatic boundary text) walk (fun _ => Decides engine boundary walk)
      fun _ => True := by
  obtain ⟨function, hliteral, htree, -⟩ := Synthesizer.literal_spec hsound text
  unfold leaveStatic
  rw [leads_bind, leads_onSynthesizer, hliteral]
  exact ⟨function, true, _, rfl, .literal htree⟩

theorem leaveRewritten_decides (boundary : Boundary) (function : Script.Id) :
    Leads (leaveRewritten engine boundary function) walk
      (fun _ => Decides engine boundary walk) fun _ => True := by
  unfold leaveRewritten
  rw [leads_bind, leads_get]
  dsimp only
  rw [leads_bind, leads_onProgram, leads_bind, leads_get, leads_bind, leads_onSynthesizer]
  split
  · next rewritten haccepted => exact ⟨rewritten, false, _, rfl, .rewritten _ _ haccepted⟩
  · exact ⟨boundary.own, false, _, rfl, .own⟩

/-- Leaving a component closes its entry with a function that was decided on. -/
theorem leaveComponent_decides (hsound : walk.synthesizer.Sound) (boundary : Boundary) :
    Leads (leaveComponent engine boundary) walk (fun _ => Decides engine boundary walk)
      fun _ => True := by
  unfold leaveComponent
  rw [leads_bind, leads_modify, leads_bind, leads_get]
  dsimp only
  split
  · next text _ =>
      exact @leaveStatic_decides engine { walk with active := boundary.around } hsound boundary text
  · split
    · exact ⟨boundary.own, false, _, rfl, .own⟩
    · next function _ =>
        split
        · exact ⟨boundary.own, false, _, rfl, .own⟩
        · exact @leaveRewritten_decides engine { walk with active := boundary.around } boundary
            function

/-- The function of the entry that is closed at a moment was decided on then. -/
theorem Leaving.decided {boundary : Boundary} {opened : OpenEntry} {entry : FoldedTree}
    (h : Leaving engine walk boundary opened entry) (hsound : walk.synthesizer.Sound) :
    Decided engine walk.synthesizer boundary entry.function entry.isStatic := by
  obtain ⟨pairs, rest, others, after, -, -, hentries, hplace, hwork, hattached⟩ := h.closes
  obtain ⟨function, isStatic, stays, hbuilder, hdecided⟩ :=
    leads_ok (@leaveComponent_decides engine { walk with frames := rest } hsound boundary) hwork
  simp only [Builder.close, hentries] at hbuilder
  have hentry := Builder.attach_inj hplace (hattached.symm.trans hbuilder)
  rw [hentry]
  exact hdecided

/-- What has been decided on can be run in place of the instance's own function, except for a
    literal that the engine refuses. -/
theorem Decided.runs_iff {synthesizer : Synthesizer} {boundary : Boundary}
    {function : RenderFunction} {isStatic : Bool}
    (h : Decided engine synthesizer boundary function isStatic)
    (hvalidates : synthesizer.validates = true) (hruns : boundary.Runs engine) :
    (engine.validate boundary.inst function).isOk ↔
      (isStatic = true → engine.refuses function = none) := by
  cases h with
  | literal htree =>
      rw [Engine.validate_literal htree]
      exact ⟨fun hrefuses _ => hrefuses, fun hrefuses => hrefuses rfl⟩
  | own => exact iff_of_true hruns.validate fun hstatic => by cases hstatic
  | rewritten arena root haccepted =>
      refine iff_of_true ?_ fun hstatic => by cases hstatic
      exact Synthesizer.validated hvalidates haccepted

theorem untouched_validates : Untouched (·.synthesizer.validates) :=
  ⟨fun _ _ => rfl, fun _ _ => rfl, fun _ _ => rfl, fun _ _ _ _ => rfl⟩

theorem preserves_onSynthesizer {α : Type} {work : Synthesizer → α × Synthesizer}
    (h : ∀ synthesizer, (work synthesizer).2.validates = synthesizer.validates) :
    Preserves (·.synthesizer.validates) (onSynthesizer work) :=
  fun walk => h walk.synthesizer

theorem leaveStatic_validates (boundary : Boundary) (text : String) :
    Preserves (·.synthesizer.validates) (leaveStatic boundary text) := by
  refine preserves_bind (preserves_onSynthesizer fun _ => rfl) fun result => ?_
  split
  · exact preserves_throw _
  · exact preserves_bind (fun _ => rfl) fun _ => preserves_bind preserves_get fun _ _ => rfl

theorem leaveRewritten_validates (boundary : Boundary) (function : Script.Id) :
    Preserves (·.synthesizer.validates) (leaveRewritten engine boundary function) := by
  refine preserves_bind preserves_get fun _ => preserves_bind (fun _ => rfl) fun _ =>
    preserves_bind preserves_get fun _ =>
    preserves_bind (preserves_onSynthesizer fun synthesizer => ?_) fun rewritten => ?_
  · exact Synthesizer.synthesize_validates
  · split
    · exact fun _ => rfl
    · exact fun _ => rfl

theorem finish_validates (frame : Frame) :
    Preserves (·.synthesizer.validates) (finish engine frame) := by
  cases frame with
  | element slot closing pairs => exact fun _ => rfl
  | group slot pairs => exact fun _ => rfl
  | component boundary pairs =>
      refine preserves_bind (fun _ => rfl) fun _ => preserves_bind preserves_get fun walk => ?_
      dsimp only
      split
      · exact leaveStatic_validates boundary _
      · split
        · exact fun _ => rfl
        · split
          · exact fun _ => rfl
          · exact leaveRewritten_validates boundary _

/-- Whether functions are run before they are accepted is what the options say. -/
theorem Reaches.validates {options : Options} {root : Twin View} {state : Engine.State}
    (h : Reaches engine (.start options root state) events out walk) :
    walk.synthesizer.validates = options.validate :=
  h.invariant (untouched_validates.invariant (· = options.validate) (fun _ _ => rfl)
    finish_validates) rfl

theorem tree_of_result {tree : FoldedTree} (h : walk.result = .ok tree) :
    tree ∈ walk.builder.trees := by
  unfold result at h
  split at h
  · split at h
    · next hroot =>
        cases h
        exact List.mem_append_left _ (hroot ▸ List.mem_singleton_self _)
    · cases h
  · cases h

variable {options : Options} {root : Twin View} {state : Engine.State} {boundary : Boundary}
  {opened : OpenEntry} {entry : FoldedTree}

/-- An entry can be run from the moment on at which it is closed, unless it is a literal and
    refused. -/
theorem Reaches.entry_runs_iff
    (h : Reaches engine (.start options root state) events out walk)
    (hvalidate : options.validate = true) (hleaving : Leaving engine walk boundary opened entry) :
    boundary.Runs engine ∧ ((engine.validate boundary.inst entry.function).isOk ↔
      (entry.isStatic = true → engine.refuses entry.function = none)) := by
  have haligned : Aligned engine (.start options root state) := start_aligned options root state
  have hsound := (h.invariant (aligned_invariant engine) haligned).synthesizer
  have hruns : boundary.Runs engine := by
    obtain ⟨pairs, rest, others, after, hframes, -⟩ := hleaving.closes
    refine (h.armed haligned (start_armed options root state)).inside boundary ?_
    rw [boundaries, hframes]
    exact List.mem_cons_self
  exact ⟨hruns, (hleaving.decided hsound).runs_iff (h.validates.trans hvalidate) hruns⟩

end Walk

namespace Engine

variable {engine : Engine} {options : Options} {root : Twin View} {state after : Engine.State}
  {tree entry : FoldedTree}

/-- Every entry of a folded tree was closed at some moment, and whenever it was: its function can
    be run in place of the own function of the instance that its component had, unless it is a
    literal that the engine refuses. The instance had that function before the component was
    entered, and still has it, whatever has been tried out on it. -/
theorem entries_run (h : engine.fold options root state = (.ok tree, after))
    (hvalidate : options.validate = true) (hentry : tree.Has entry) :
    (∃ events moment boundary opened,
      Walk.Reaches engine (.start options root state) events none moment ∧
        Walk.Leaving engine moment boundary opened entry) ∧
    ∀ events moment boundary opened,
      Walk.Reaches engine (.start options root state) events none moment →
      Walk.Leaving engine moment boundary opened entry →
      ((engine.validate boundary.inst entry.function).isOk ↔
        (entry.isStatic = true → engine.refuses entry.function = none)) ∧
      boundary.inst.render = some boundary.own ∧
      ∀ function, ((engine.tryOut function).run boundary.inst).2.render = some boundary.own := by
  refine ⟨?_, fun events moment boundary opened hmoment hleaving => ?_⟩
  · obtain ⟨last, hrun, -⟩ := fold_run h
    obtain ⟨hresult, events, hreaches⟩ := Walk.leads_ok (Walk.run_reaches _) hrun
    exact hreaches.entries_left rfl tree (Walk.tree_of_result hresult) entry hentry
  · obtain ⟨hruns, hiff⟩ := hmoment.entry_runs_iff hvalidate hleaving
    refine ⟨hiff, hruns.own, fun function => ?_⟩
    rw [tryOut_instance]
    exact hruns.own

/-- The logo below a page is a literal that runs. -/
theorem entries_run_logo : ∃ tree after entry,
    (styled [] []).fold ⟨true, true, false⟩ (Walk.named "ada") (styled [] []).initial =
      (.ok tree, after) ∧
    tree.Has entry ∧ entry.component = "logo" ∧ entry.isStatic = true ∧
    ∃ events moment boundary opened,
      Walk.Reaches (styled [] []) (.start ⟨true, true, false⟩ (Walk.named "ada")
        (styled [] []).initial) events none moment ∧
      Walk.Leaving (styled [] []) moment boundary opened entry ∧
      ((styled [] []).validate boundary.inst entry.function).isOk := by
  have hfold : ((styled [] []).fold ⟨true, true, false⟩ (Walk.named "ada")
      (styled [] []).initial).1.toOption.map (fun tree =>
        tree.children.map fun child => (child.component, child.isStatic)) =
          some [("logo", true)] := by
    decide +kernel
  rcases hresult : (styled [] []).fold ⟨true, true, false⟩ (Walk.named "ada")
      (styled [] []).initial with ⟨_ | tree, after⟩
  · rw [hresult] at hfold
    cases hfold
  · rw [hresult] at hfold
    obtain ⟨child, hchild, hlogo⟩ := List.map_eq_singleton_iff.mp (Option.some.inj hfold)
    obtain ⟨hname, hstatic⟩ := Prod.mk.inj hlogo
    have hentry : tree.Has child := .child (hchild ▸ List.mem_singleton_self child) .self
    obtain ⟨⟨events, moment, boundary, opened, hmoment, hleaving⟩, hruns⟩ :=
      entries_run hresult rfl hentry
    exact ⟨tree, after, child, rfl, hentry, hname, hstatic, events, moment, boundary, opened,
      hmoment, hleaving, (hruns _ _ _ _ hmoment hleaving).1.mpr fun _ => rfl⟩

/-- A static page, and an engine that does not run markup. -/
def guarded : Engine :=
  { Walk.engineOf { Component.named "page" with
      render := (RenderFunction.compile "return _c(\"p\", [_v(\"hi\")])").toOption } with
    refuses := fun function =>
      if function.source.toList.tails.any ("_ssrNode".toList.isPrefixOf ·) then
        some "rejected by engine"
      else none }

/-- An entry may have a function that does not run: a literal is not tried out, and nobody asks
    the engine whether it refuses it. -/
theorem literal_not_run : ¬ ∀ (engine : Engine) (options : Options) (id : ComponentId)
    (props : Value) (state after : Engine.State) (tree entry : FoldedTree),
    engine.foldComponent options id props state = (.ok tree, after) → options.validate = true →
    tree.Has entry → ∀ events moment boundary opened,
      Walk.Reaches engine
        (.start options ⟨.component id .empty, .component id (.withProps props)⟩ state) events none
        moment →
      Walk.Leaving engine moment boundary opened entry →
      (engine.validate boundary.inst entry.function).isOk := by
  intro hall
  have hfold : (guarded.foldComponent .standard 0 .null guarded.initial).1.toOption.any (fun tree =>
      tree.isStatic && (guarded.refuses tree.function).isSome) = true := by
    decide +kernel
  rcases hresult : guarded.foldComponent .standard 0 .null guarded.initial with ⟨_ | tree, after⟩
  · rw [hresult] at hfold
    cases hfold
  · rw [hresult] at hfold
    obtain ⟨hstatic, hrefuses⟩ := Bool.and_eq_true_iff.mp hfold
    obtain ⟨last, hrun, -⟩ := fold_run hresult
    obtain ⟨hlast, events, hreaches⟩ := Walk.leads_ok (Walk.run_reaches _) hrun
    obtain ⟨events, moment, boundary, opened, hmoment, hleaving⟩ :=
      hreaches.entries_left rfl tree (Walk.tree_of_result hlast) tree .self
    have hruns := hall guarded .standard 0 .null guarded.initial after tree tree hresult rfl .self
      events moment boundary opened hmoment hleaving
    have hnone := (hmoment.entry_runs_iff rfl hleaving).2.mp hruns hstatic
    rw [hnone] at hrefuses
    cases hrefuses

end Engine

end RenderFold
