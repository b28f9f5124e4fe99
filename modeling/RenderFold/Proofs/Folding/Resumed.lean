import RenderFold.Proofs.Folding.Compared

/-!
# Going On After a Pause

A walk that waits is busy with what it waits for, and this does not change
while others do the work. When it goes on, the value fits: hooks have run on
both sides, and the instances are those that they leave behind, or two async
components have resolved, and then it is recorded what they resolved to. No
component gets another render function meanwhile.

## Main definitions

* `Engine.Retains`: Work that compiles no templates.
* `Walk.Sound`: How a walk stands at a pause, and without one.

## Theorems

* `Engine.prefetchBoth_ok`, `Engine.resolveBoth_retains`: What waiting does.
* `Walk.resume_leads`: Going on after a pause.
-/

namespace RenderFold

namespace Engine

variable {α β : Type} {engine : Engine}

/-- Both sides have their hooks run, and are left with what these add. -/
theorem prefetchBoth_ok {first second static dynamic : Instance}
    (h : prefetchBoth first second = (.ok (), static, dynamic)) :
    (prefetch first).value = .ok static ∧ (prefetch second).value = .ok dynamic := by
  simp only [prefetchBoth, Prod.mk.injEq] at h
  obtain ⟨hboth, rfl, rfl⟩ := h
  obtain ⟨a, b, ha, hb, -⟩ := Delayed.join_ok.mp hboth
  have hdelay : (Delayed.join (fun _ _ => ()) (prefetch first) (prefetch second)).delay =
      max (prefetch first).delay (prefetch second).delay := by
    simp only [Delayed.join, ha, hb]
  simp only [Delayed.settledFirst, Delayed.settledSecond, hdelay, ha, hb, leftBehind,
    le_max_left, le_max_right, decide_true, if_true]
  exact ⟨trivial, trivial⟩

/-- Work that compiles no templates, whether it succeeds or fails. -/
def Retains (work : EngineM α) : Prop :=
  ∀ state, match work state with
    | .ok _ after => after.templates = state.templates
    | .error _ after => after.templates = state.templates

theorem retains_pure (a : α) : Retains (pure a) := fun _ => rfl

theorem retains_throw (e : RenderError) : Retains (throw e : EngineM α) := fun _ => rfl

theorem retains_get : Retains get := fun _ => rfl

theorem retains_modify {change : State → State}
    (h : ∀ state, (change state).templates = state.templates) : Retains (modify change) := h

theorem retains_bind {work : EngineM β} {next : β → EngineM α} (h : Retains work)
    (hnext : ∀ b, Retains (next b)) : Retains (work >>= next) := by
  intro state
  have hwork := h state
  simp only [bind, EStateM.bind]
  cases hresult : work state with
  | error e after => rwa [hresult] at hwork
  | ok b after =>
      rw [hresult] at hwork
      have hlast := hnext b after
      dsimp only
      cases hresult' : next b after with
      | error e last => rw [hresult'] at hlast; exact hlast.trans hwork
      | ok a last => rw [hresult'] at hlast; exact hlast.trans hwork

theorem retains_ite {p : Prop} [Decidable p] {work other : EngineM α} (h : Retains work)
    (hother : Retains other) : Retains (if p then work else other) := by
  split
  · exact h
  · exact hother

theorem begin_retains (asked : Asked) : Retains (engine.begin asked) := by
  cases asked with
  | answered resolution => exact retains_pure _
  | call id =>
      unfold begin
      dsimp only
      split
      · exact retains_pure _
      · exact retains_bind retains_get fun _ =>
          retains_bind (retains_modify fun _ => rfl) fun _ => retains_pure _

theorem keep_retains (asked : Asked) (outcome : Except RenderError Resolution) :
    Retains (keep asked outcome) := by
  cases outcome with
  | error e => exact retains_pure _
  | ok resolution =>
      cases asked with
      | answered other => exact retains_pure _
      | call id => exact retains_modify fun _ => rfl

/-- Waiting for async components compiles no templates. -/
theorem resolveBoth_retains (engine : Engine) (first second : Asked) :
    Retains (engine.resolveBoth first second) := by
  unfold resolveBoth
  refine retains_bind (begin_retains first) fun a => ?_
  split
  · exact retains_throw _
  · refine retains_bind (begin_retains second) fun b => ?_
    have hfirst : Retains (if Delayed.settledFirst a (Delayed.join Prod.mk a b).delay then
        keep first a.value else return) := retains_ite (keep_retains _ _) (retains_pure _)
    have hsecond : Retains (if Delayed.settledSecond a b (Delayed.join Prod.mk a b).delay then
        keep second b.value else return) := retains_ite (keep_retains _ _) (retains_pure _)
    dsimp only
    -- Whichever of the two settles first is kept first.
    split
    · refine retains_bind hfirst fun _ => retains_bind hsecond fun _ => ?_
      split
      · exact retains_pure _
      · exact retains_throw _
    · refine retains_bind hsecond fun _ => retains_bind hfirst fun _ => ?_
      split
      · exact retains_pure _
      · exact retains_throw _

theorem function?_of_templates {before after : State} (h : after.templates = before.templates) :
    engine.function? after = engine.function? before := by
  funext component
  simp only [function?, h]

end Engine

namespace Walk

variable {engine : Engine} {functions : Component → Option RenderFunction} {comments : Bool}
  {events : List Event} {walk : Walk} {zone : Set Script.Id}

/-- Being steady adds to what is known of a step. -/
theorem Steady.leads {α : Type} {work : Walking α} {ok : α → Walk → Prop} {bad : Walk → Prop}
    (hsteady : Steady work) (h : Leads work walk ok bad) :
    Leads work walk (fun a after => ok a after ∧ after.pause = walk.pause)
      (fun after => bad after ∧ after.pause = walk.pause) :=
  leads_of_eq (fun _ _ hwork => ⟨leads_ok h hwork, (leads_ok (hsteady walk) hwork).1⟩)
    fun _ _ hwork => ⟨leads_error h hwork, (leads_error (hsteady walk) hwork).1⟩

section Pauses

variable (engine : Engine) (functions : Component → Option RenderFunction) (comments : Bool)
  (events : List Event) (walk : Walk)

/-- How a walk stands if no suspension of it is handed out. If it waits all
    the same, then what it waited for has failed, and it will not go on. -/
def Rests : Prop :=
  match walk.pause with
  | .going => Idle engine functions comments events walk
  | .parked suspension => Waits engine functions comments events walk suspension
  | .waiting => Recorded engine functions comments events walk.program.findings

/-- How a walk stands, given the suspension that is handed out. -/
def Sound : Option Suspension → Prop
  | none => Rests engine functions comments events walk
  | some suspension =>
    walk.pause = .waiting ∧ Waits engine functions comments events walk suspension

end Pauses

theorem Idle.rests (h : Idle engine functions comments events walk) (hpause : walk.pause = .going) :
    Rests engine functions comments events walk := by
  rw [Rests, hpause]
  exact h

theorem Rests.idle (h : Rests engine functions comments events walk)
    (hpause : walk.pause = .going) : Idle engine functions comments events walk := by
  rwa [Rests, hpause] at h

theorem Rests.waits {suspension : Suspension} (h : Rests engine functions comments events walk)
    (hpause : walk.pause = .parked suspension) :
    Waits engine functions comments events walk suspension := by
  rwa [Rests, hpause] at h

theorem Waits.recorded {suspension : Suspension}
    (h : Waits engine functions comments events walk suspension) :
    Recorded engine functions comments events walk.program.findings := by
  cases h with
  | component h => exact h.busy.recorded
  | deferred h => exact h.busy.recorded

theorem Rests.recorded (h : Rests engine functions comments events walk) :
    Recorded engine functions comments events walk.program.findings := by
  unfold Rests at h
  split at h
  · exact h.recorded
  · exact h.recorded
  · exact h

/-- Pausing changes nothing that a busy walk depends on. -/
theorem Busy.withPause {slot : Script.Id} {known : Option String}
    {goal : List Settled → String → Prop} (pause : Pause)
    (h : Busy engine functions comments events walk zone slot known goal) :
    Busy engine functions comments events { walk with pause } zone slot known goal :=
  ⟨h.stacked, h.closed, h.slot_mem, h.text, h.not_static, h.owes, h.recorded, h.used_lt,
    h.functions, h.comments⟩

theorem Waits.withPause {suspension : Suspension} (pause : Pause)
    (h : Waits engine functions comments events walk suspension) :
    Waits engine functions comments events { walk with pause } suspension := by
  cases h with
  | component h => exact .component ⟨h.busy.withPause pause, h.function_mem, h.room⟩
  | deferred h hview => exact .deferred ⟨h.busy.withPause pause, h.room, h.mem⟩ hview

/-- A component whose hooks have run is entered. -/
theorem resumeComponent_leads {pending : Pending} {state : Engine.State} {resolved : Resolved}
    {continuation : Continuation}
    (h : Entering engine functions comments events walk pending zone
      (AwaitsInto engine functions comments pending))
    (hpause : walk.pause = .waiting)
    (hawait : (Suspension.component pending).await engine walk.engine =
      (.ok resolved, continuation, state)) :
    Leads (resume engine continuation resolved) { walk with engine := state }
      (fun _ after => Rests engine functions comments
        (events ++ resumeTrail { walk with engine := state } continuation resolved) after)
      (Rests engine functions comments
        (events ++ resumeTrail { walk with engine := state } continuation resolved)) := by
  rcases hboth : Engine.prefetchBoth pending.instances.static pending.instances.dynamic with
    ⟨_ | _, static, dynamic⟩
  · simp only [Suspension.await, hboth, Except.map, Prod.mk.injEq, reduceCtorEq, false_and] at hawait
  · simp only [Suspension.await, hboth, Except.map, Prod.mk.injEq, Except.ok.injEq] at hawait
    obtain ⟨rfl, rfl, rfl⟩ := hawait
    obtain ⟨hstatic, hdynamic⟩ := Engine.prefetchBoth_ok hboth
    -- The hooks have given the instances that were awaited.
    have hbusy := h.busy.weaken fun answers text hmet => ⟨⟨_, _⟩, hstatic, hdynamic, hmet⟩
    have hentering : Entering engine functions comments events { walk with pause := .going }
        { pending with instances := ⟨static, dynamic⟩ } zone
        (EntersInto engine functions comments { pending with instances := ⟨static, dynamic⟩ }) :=
      ⟨hbusy.withPause .going, h.function_mem, h.room⟩
    have htrail : events ++ resumeTrail walk
        (.component { pending with instances := ⟨static, dynamic⟩ }) .prefetched = events :=
      List.append_nil _
    rw [htrail]
    unfold resume
    rw [leads_bind, leads_get]
    dsimp only
    rw [hpause]
    dsimp only
    rw [leads_bind, leads_modify]
    exact leads_mono ((enterComponent_steady _).leads (enterComponent_leads hentering))
      (fun _ _ hafter => hafter.1.rests hafter.2) fun _ hafter => hafter.1.rests hafter.2

/-- Async components that have resolved are compared by what they resolved
    to. -/
theorem resumeDeferred_leads {pair : Pair} {data : Twin NodeData} {asked : Twin Engine.Asked}
    {id id' : FactoryId} {state : Engine.State} {resolved : Resolved} {continuation : Continuation}
    (h : Ready engine functions comments events walk pair zone)
    (hview : pair.view = ⟨.deferred id data.static, .deferred id' data.dynamic⟩)
    (hpause : walk.pause = .waiting)
    (hawait : (Suspension.deferred pair data asked).await engine walk.engine =
      (.ok resolved, continuation, state)) :
    Leads (resume engine continuation resolved) { walk with engine := state }
      (fun _ after => Rests engine functions comments
        (events ++ resumeTrail { walk with engine := state } continuation resolved) after)
      (Rests engine functions comments
        (events ++ resumeTrail { walk with engine := state } continuation resolved)) := by
  have hretains := engine.resolveBoth_retains asked.static asked.dynamic walk.engine
  simp only [Suspension.await] at hawait
  cases hboth : engine.resolveBoth asked.static asked.dynamic walk.engine with
  | error e after => simp only [hboth, Prod.mk.injEq, reduceCtorEq, false_and] at hawait
  | ok resolutions after =>
      rw [hboth] at hretains
      simp only [hboth, Prod.mk.injEq, Except.ok.injEq] at hawait
      obtain ⟨rfl, rfl, rfl⟩ := hawait
      -- Waiting has compiled no templates, so all components keep their functions.
      have hbusy := (h.busy.withEngine (Engine.function?_of_templates hretains)).withPause .going
      have hready : Ready engine functions comments events
          { walk with engine := after, pause := .going } pair zone := ⟨hbusy, h.room, h.mem⟩
      have hleads := compareResolved_leads data ⟨resolutions.1, resolutions.2⟩
        (fun _ _ => compare_leads maxChain) hready hview
      unfold resume
      rw [leads_bind, leads_get]
      dsimp only
      rw [hpause]
      dsimp only
      rw [leads_bind, leads_modify, leads_bind]
      have hsteady : Steady (compareResolved engine (compare engine maxChain) pair data
          ⟨resolutions.1, resolutions.2⟩) := compareResolved_steady (compare_steady maxChain) _ _ _
      refine leads_mono (hsteady.leads hleads) (fun out last hafter => ?_) fun last hafter => ?_
      · cases out with
        | none => exact Idle.rests hafter.1 hafter.2
        | some suspension =>
            -- Comparing the views has come upon another suspension, which is kept until it
            -- is asked for.
            rw [leads_modify]
            exact Waits.withPause (.parked suspension) hafter.1
      · exact hafter.1.rests hafter.2

/-- A walk that goes on after a pause rests, also if it fails. -/
theorem resume_leads {suspension : Suspension} {state : Engine.State} {resolved : Resolved}
    {continuation : Continuation}
    (h : Sound engine functions comments events walk (some suspension))
    (hawait : suspension.await engine walk.engine = (.ok resolved, continuation, state)) :
    Leads (resume engine continuation resolved) { walk with engine := state }
      (fun _ after => Rests engine functions comments
        (events ++ resumeTrail { walk with engine := state } continuation resolved) after)
      (Rests engine functions comments
        (events ++ resumeTrail { walk with engine := state } continuation resolved)) := by
  obtain ⟨hpause, hwaits⟩ := h
  cases hwaits with
  | component h => exact resumeComponent_leads h hpause hawait
  | deferred h hview => exact resumeDeferred_leads h hview hpause hawait

end Walk

end RenderFold
