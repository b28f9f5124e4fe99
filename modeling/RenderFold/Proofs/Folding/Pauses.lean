import RenderFold.Proofs.Folding.Meetings

/-!
# Pauses

A walk that meets the pairs of the innermost frame one by one never pauses,
and it ends as one that hands out its suspensions and is resumed does. Where
it would pause, nothing is changed but the engine's state, so what a
suspension is resumed with is what the walk goes on with in the same step.

The two walks do not take the same steps: one meeting may be a comparison,
then a suspension that is handed out, and then another one that came up when
the walk went on. So it is how the walks end that is compared.

## Main definitions

* `Walk.Onward`: How a walk ends after a step.
* `Walk.Follows`: How it ends without a pause, if something is waited for.
* `Walk.Comes`: How it ends with one.

## Theorems

* `Walk.Ends.proceeds`: A walk that pauses ends as one that does not.
* `Walk.Rounds.ends`: And the other way round.
* `Walk.ends_iff_rounds`: A walk ends the same way with and without pauses.
-/

namespace RenderFold

namespace Walk

section Onward

variable {engine : Engine} {α β : Type} {pair : Pair} {data : Twin NodeData}
  {resolutions : Twin Resolution} {walk after : Walk} {out : Option Suspension}
  {log later : List Visit} {result : Except FoldError Walk}

/-- How a walk ends after a step, if `goes` says how it ends after one that succeeds. -/
def Onward (goes : α → Walk → List Visit → Except FoldError Walk → Prop) (log : List Visit)
    (result : Except FoldError Walk) : EStateM.Result FoldError Walk α → Prop
  | .ok a after => goes a after log result
  | .error e _ => e ≠ .render .unfinished ∧ log = [] ∧ result = .error e

theorem onward_bind {goes : β → Walk → List Visit → Except FoldError Walk → Prop}
    {work : Walking α} {next : α → Walking β} :
    Onward goes log result ((work >>= next) walk) ↔
      Onward (fun a after log result => Onward goes log result (next a after)) log result
        (work walk) := by
  simp only [bind, EStateM.bind]
  cases work walk <;> rfl

theorem Onward.mono {goes goes' : α → Walk → List Visit → Except FoldError Walk → Prop}
    {work : Walking α} (h : Onward goes log result (work walk))
    (hmono : Leads work walk
      (fun a after => ∀ log result, goes a after log result → goes' a after log result)
      fun _ => True) : Onward goes' log result (work walk) := by
  cases hwork : work walk with
  | ok a after =>
      rw [hwork] at h
      exact leads_ok hmono hwork log result h
  | error e after =>
      rw [hwork] at h
      exact h

theorem Onward.finishes {goes : α → Walk → List Visit → Except FoldError Walk → Prop}
    {worked : EStateM.Result FoldError Walk α} (h : Onward goes log result worked) :
    Finishes worked := by
  rintro after rfl
  exact h.1 rfl

theorem compareAll_append (path : List Nat) (context : Twin TagContext)
    (views later : List (Twin View)) :
    compareAll path context (views ++ later) =
      compareAll path context views ++ compareAll path context later :=
  List.map_append

/-- The context of the nodes that are compared while something is waited for. -/
def contextAfter : Option Suspension → Twin TagContext
  | none => ⟨.empty, .empty⟩
  | some suspension => resumedContext suspension.continuation

/-- How a walk ends that waits for something first. -/
def Follows (engine : Engine) (out : Option Suspension) (walk : Walk) (log : List Visit)
    (result : Except FoldError Walk) : Prop :=
  ∃ depth later,
    log = compareAll (Frame.path walk.frames) (contextAfter out)
      (followed engine (met engine depth) out walk.engine) ++ later ∧
    Onward (fun _ => Rounds engine) later result (follow engine (meet engine depth) out walk)

theorem follows_none : Follows engine none walk log result ↔ Rounds engine walk log result := by
  constructor
  · rintro ⟨depth, later, rfl, honward⟩
    exact honward
  · exact fun h => ⟨0, log, rfl, h⟩

/-- While something is waited for, what is compared is at the same place. -/
theorem StaysAt.compareAll_eq (h : StaysAt walk pair out after)
    (met : Twin View → Engine.State → List (Twin View)) (state : Engine.State) :
    compareAll (Frame.path after.frames) (contextAfter out) (followed engine met out state) =
      compareAll (Frame.path walk.frames) pair.context (followed engine met out state) := by
  rcases out with _ | pending | ⟨other, data, asked⟩
  · rfl
  · rfl
  · obtain ⟨hcontext, hframes⟩ := h
    show compareAll (Frame.path after.frames) other.context _ = _
    rw [hcontext, hframes]

/-- A comparison and what comes of it amount to a meeting. -/
theorem meets_of_onward (meets : Nat → Walking Unit) (met : Nat → List (Twin View))
    {compares : Walking (Option Suspension)} {compared : List (Twin View)}
    (hstays : Leads compares walk (StaysAt walk pair) fun _ => True)
    (hmeets : ∃ more, ∀ later,
      meets (later + more) walk = (compares >>= follow engine (meet engine later)) walk ∧
      met (later + more) = compared ++ followedOf engine later (compares walk))
    (h : Onward (Follows engine) log result (compares walk)) :
    ∃ depth later,
      compareAll (Frame.path walk.frames) pair.context compared ++ log =
        compareAll (Frame.path walk.frames) pair.context (met depth) ++ later ∧
      Onward (fun _ => Rounds engine) later result (meets depth walk) := by
  obtain ⟨more, hmore⟩ := hmeets
  cases hwork : compares walk with
  | ok out after =>
      rw [hwork] at h
      obtain ⟨depth, later, rfl, honward⟩ := h
      obtain ⟨hmeet, hmet⟩ := hmore depth
      refine ⟨depth + more, later, ?_, ?_⟩
      · rw [hmet, hwork, compareAll_append, ← List.append_assoc,
          (leads_ok hstays hwork).compareAll_eq]
        rfl
      · rwa [hmeet, bind_of_ok hwork]
  | error e after =>
      rw [hwork] at h
      obtain ⟨hfinished, rfl, rfl⟩ := h
      obtain ⟨hmeet, hmet⟩ := hmore 0
      refine ⟨0 + more, [], ?_, ?_⟩
      · rw [hmet, hwork]
        simp only [followedOf, List.append_nil]
      · rw [hmeet, bind_of_error hwork]
        exact ⟨hfinished, rfl, rfl⟩

/-- How a walk ends that meets a pair of the innermost frame. -/
theorem rounds_of_compare {depth : Nat} {frame : Frame} {rest : List Frame} {left : Pairs}
    (hframes : walk.frames = frame :: rest) (hnext : frame.pairs.next? = some (pair, left))
    (h : Onward (Follows engine) log result
      (compare engine depth pair { walk with frames := frame.withPairs left :: rest })) :
    Rounds engine walk (compareAll (Frame.path (frame.withPairs left :: rest)) pair.context
      (hops walk.cached depth pair.view) ++ log) result := by
  have hmeets := meetsAs depth pair _ h.finishes
  obtain ⟨depth', later, hlog, honward⟩ :=
    meets_of_onward (meet engine · pair) (met engine · pair.view walk.engine)
      (compare_staysAt depth pair _) hmeets h
  rw [show compareAll (Frame.path (frame.withPairs left :: rest)) pair.context
    (hops walk.cached depth pair.view) ++ log = _ from hlog]
  cases hwork : meet engine depth' pair { walk with frames := frame.withPairs left :: rest } with
  | ok _ after =>
      rw [hwork] at honward
      exact .meet hframes hnext hwork honward
  | error e after =>
      rw [hwork] at honward
      obtain ⟨hfinished, rfl, rfl⟩ := honward
      rw [List.append_nil]
      exact .meetFails hframes hnext hwork hfinished

/-- How a walk ends that waits for two async components to resolve. -/
theorem follows_of_resolved {depth : Nat} {asked : Twin Engine.Asked} {state : Engine.State}
    (hboth : engine.resolveBoth asked.static asked.dynamic walk.engine =
      .ok (resolutions.static, resolutions.dynamic) state)
    (h : Onward (Follows engine) log result
      (compareResolved engine (compare engine depth) pair data resolutions
        { walk with engine := state })) :
    Follows engine (some (.deferred pair data asked)) walk
      (compareAll (Frame.path walk.frames) pair.context
        (resolvedViews (hops (cached { walk with engine := state }) depth) resolutions) ++ log)
      result := by
  have hmeets := (meetsAs depth).settle h.finishes
  obtain ⟨depth', later, hlog, honward⟩ :=
    meets_of_onward
      (fun depth => settle engine (meet engine depth) pair data resolutions)
      (fun depth => resolvedViews (met engine depth · state) resolutions)
      (compareResolved_staysAt (compare_staysAt depth)) hmeets h
  refine ⟨depth', later, ?_, ?_⟩
  · simp only [followed, hboth]
    exact hlog
  · have hresolve : onEngine (engine.resolveBoth asked.static asked.dynamic) walk =
        .ok (resolutions.static, resolutions.dynamic) { walk with engine := state } := by
      simp only [onEngine, hboth]
    rw [show follow engine (meet engine depth') (some (.deferred pair data asked)) walk = _ from
      bind_of_ok hresolve]
    exact honward

/-- How a walk ends that is about to hand out a suspension, or has done so. -/
def Proceeds (engine : Engine) (out : Option Suspension) (walk : Walk) (log : List Visit)
    (result : Except FoldError Walk) : Prop :=
  match out, walk.pause with
  | none, .going => Rounds engine walk log result
  | none, .parked suspension =>
    Follows engine (some suspension) { walk with pause := .going } log result
  | some suspension, .waiting =>
    Follows engine (some suspension) { walk with pause := .going } log result
  | _, _ => True

theorem follows_of_proceeds (hpause : walk.pause = .going)
    (h : Proceeds engine out (walk.handingOut out) log result) :
    Follows engine out walk log result := by
  cases walk
  cases hpause
  cases out with
  | none => exact follows_none.mpr h
  | some suspension => exact h

/-- Going on at a continuation is comparing what async components resolved to. What
    has to be waited for next is handed out later. -/
theorem resumeWithin_deferred {depth : Nat} (hpause : walk.pause = .waiting) :
    resumeWithin engine depth (.deferred pair data) (.deferred resolutions) walk =
      match compareResolved engine (compare engine depth) pair data resolutions
        { walk with pause := .going } with
      | .ok none after => .ok () after
      | .ok (some suspension) after => .ok () { after with pause := .parked suspension }
      | .error e after => .error e after := by
  unfold resumeWithin
  rw [get_bind, hpause]
  dsimp only
  rw [modify_bind]
  cases hwork : compareResolved engine (compare engine depth) pair data resolutions
      { walk with pause := .going } with
  | error e after => rw [bind_of_error hwork]
  | ok out after =>
      rw [bind_of_ok hwork]
      cases out <;> rfl

/-- Going on at a component is entering it. -/
theorem resumeWithin_component {depth : Nat} {pending : Pending} (hpause : walk.pause = .waiting) :
    resumeWithin engine depth (.component pending) .prefetched walk =
      enterComponent engine pending { walk with pause := .going } := by
  unfold resumeWithin
  rw [get_bind, hpause]
  rfl

theorem enter_component {pending : Pending} {static dynamic : Instance}
    (hboth : Engine.prefetchBoth pending.instances.static pending.instances.dynamic =
      (.ok (), static, dynamic)) :
    enter engine (some (.component pending)) walk =
      enterComponent engine { pending with instances := ⟨static, dynamic⟩ } walk := by
  simp only [enter, hboth]
  rfl

theorem follow_component (meet : Pair → Walking Unit) (pending : Pending) :
    follow engine meet (some (.component pending)) = enter engine (some (.component pending)) :=
  rfl

theorem enter_component_error {pending : Pending} {e : RenderError} {static dynamic : Instance}
    (hboth : Engine.prefetchBoth pending.instances.static pending.instances.dynamic =
      (.error e, static, dynamic)) :
    enter engine (some (.component pending)) walk = .error (.render e) walk := by
  simp only [enter, hboth]
  rfl

/-- What the work of a suspension gives is what the walk goes on with, in the same
    step. -/
theorem follows_of_await {depth : Nat} {suspension : Suspension} {resolved : Resolved}
    {continuation : Continuation} {state : Engine.State} (hpause : walk.pause = .waiting)
    (hawait : suspension.await engine walk.engine = (.ok resolved, continuation, state))
    (h : Onward (fun _ => Proceeds engine none) log result
      (resumeWithin engine depth continuation resolved { walk with engine := state })) :
    Follows engine (some suspension) { walk with pause := .going }
      (compareAll (Frame.path walk.frames) (resumedContext continuation)
        (resumedHops (cached { walk with engine := state }) depth continuation resolved) ++ log)
      result := by
  have hresumed : ({ walk with engine := state } : Walk).pause = .waiting := hpause
  rcases suspension with pending | ⟨pair, data, asked⟩
  · rcases hboth : Engine.prefetchBoth pending.instances.static pending.instances.dynamic with
      ⟨outcome, static, dynamic⟩
    simp only [Suspension.await, hboth, Prod.mk.injEq] at hawait
    obtain ⟨hresolved, rfl, rfl⟩ := hawait
    cases outcome with
    | error e => cases hresolved
    | ok _ =>
        cases hresolved
        rw [resumeWithin_component hresumed] at h
        refine ⟨0, log, rfl, ?_⟩
        rw [follow_component, enter_component hboth]
        refine h.mono (leads_mono (enterComponent_steady _ _)
          (fun _ after hafter log result hproceeds => ?_) fun _ _ => trivial)
        simpa only [Proceeds, hafter.1] using hproceeds
  · cases hboth : engine.resolveBoth asked.static asked.dynamic walk.engine with
    | error e state' =>
        simp only [Suspension.await, hboth] at hawait
        cases hawait
    | ok both state' =>
        obtain ⟨static, dynamic⟩ := both
        simp only [Suspension.await, hboth] at hawait
        cases hawait
        rw [resumeWithin_deferred hresumed] at h
        refine @follows_of_resolved engine pair data ⟨static, dynamic⟩
          { walk with pause := .going } log result depth asked state hboth ?_
        cases hwork : compareResolved engine (compare engine depth) pair data ⟨static, dynamic⟩
            { walk with pause := .going, engine := state } with
        | error e after =>
            rw [hwork] at h
            exact h
        | ok out after =>
            rw [hwork] at h
            have hgoing : after.pause = .going :=
              (leads_ok (compareResolved_steady (compare_steady depth) _ _ _ _) hwork).1
            refine follows_of_proceeds hgoing ?_
            cases out with
            | none => exact h
            | some suspension => exact h

/-- If the work of a suspension fails, this is how the walk ends. -/
theorem follows_of_await_error {suspension : Suspension} {e : RenderError}
    {continuation : Continuation} {state : Engine.State} {pause : Pause}
    (hawait : suspension.await engine walk.engine = (.error e, continuation, state))
    (hfinished : e ≠ .unfinished) :
    Follows engine (some suspension) { walk with pause } [] (.error (.render e)) := by
  have hrender : FoldError.render e ≠ .render .unfinished := fun h => by
    injection h with h
    exact hfinished h
  rcases suspension with pending | ⟨pair, data, asked⟩
  · rcases hboth : Engine.prefetchBoth pending.instances.static pending.instances.dynamic with
      ⟨outcome, static, dynamic⟩
    simp only [Suspension.await, hboth, Prod.mk.injEq] at hawait
    obtain ⟨hfailed, rfl, rfl⟩ := hawait
    cases outcome with
    | ok _ => cases hfailed
    | error e' =>
        cases hfailed
        refine ⟨0, [], rfl, ?_⟩
        rw [follow_component, enter_component_error hboth]
        exact ⟨hrender, rfl, rfl⟩
  · cases hboth : engine.resolveBoth asked.static asked.dynamic walk.engine with
    | ok both state' =>
        simp only [Suspension.await, hboth] at hawait
        cases hawait
    | error e' state' =>
        simp only [Suspension.await, hboth] at hawait
        cases hawait
        have hresolve : onEngine (engine.resolveBoth asked.static asked.dynamic)
            { walk with pause } = .error (.render e) { walk with pause, engine := state } := by
          simp only [onEngine, hboth]
        refine ⟨0, [], by simp only [followed, hboth]; rfl, ?_⟩
        rw [show follow engine (meet engine 0) (some (.deferred pair data asked))
          { walk with pause } = _ from bind_of_error hresolve]
        exact ⟨hrender, rfl, rfl⟩

/-- A walk that pauses ends as one that does not. -/
theorem Ends.proceeds (h : Ends engine out walk log result) :
    Proceeds engine out walk log result := by
  induction h with
  | done hpause hframes =>
      simp only [Proceeds, hpause]
      exact .done hframes
  | @compare walk depth frame rest pair left out after log result hpause hframes hnext hwork hrest
      ih =>
      simp only [Proceeds, hpause]
      refine rounds_of_compare hframes hnext ?_
      rw [hwork]
      exact follows_of_proceeds ((leads_ok (compare_steady _ _ _) hwork).1.trans hpause) ih
  | compareFails hpause hframes hnext hwork hfinished =>
      simp only [Proceeds, hpause]
      refine List.append_nil (compareAll _ _ _) ▸ rounds_of_compare hframes hnext ?_
      rw [hwork]
      exact ⟨hfinished, rfl, rfl⟩
  | finish hpause hframes hnext hwork hrest ih =>
      have hgoing := (leads_ok (finish_steady _ _) hwork).1.trans hpause
      simp only [Proceeds, hpause]
      simp only [Proceeds, hgoing] at ih
      exact .finish hframes hnext hwork ih
  | finishFails hpause hframes hnext hwork hfinished =>
      simp only [Proceeds, hpause]
      exact .finishFails hframes hnext hwork hfinished
  | handOut hpause hrest ih =>
      simp only [Proceeds, hpause]
      exact ih
  | @resume walk suspension depth resolved continuation state after log result hawait hwork hrest
      ih =>
      cases hpause : walk.pause with
      | waiting =>
          simp only [Proceeds, hpause]
          refine follows_of_await hpause hawait ?_
          rw [hwork]
          exact ih
      | going => simp only [Proceeds, hpause]
      | parked suspension => simp only [Proceeds, hpause]
  | @resumeFails walk suspension depth resolved continuation state e after hawait hwork hfinished =>
      cases hpause : walk.pause with
      | waiting =>
          simp only [Proceeds, hpause]
          refine List.append_nil (compareAll _ _ _) ▸ follows_of_await hpause hawait ?_
          rw [hwork]
          exact ⟨hfinished, rfl, rfl⟩
      | going => simp only [Proceeds, hpause]
      | parked suspension => simp only [Proceeds, hpause]
  | @awaitFails walk suspension e continuation state hawait hfinished =>
      cases hpause : walk.pause with
      | waiting =>
          simp only [Proceeds, hpause]
          exact follows_of_await_error hawait hfinished
      | going => simp only [Proceeds, hpause]
      | parked suspension => simp only [Proceeds, hpause]

theorem enter_steady (out : Option Suspension) : Steady (enter engine out) := by
  unfold enter
  split
  · exact steady_bind (steady_ofExcept _) fun _ => enterComponent_steady _
  · exact steady_pure _

theorem settle_steady {meet : Pair → Walking Unit} (hmeet : ∀ pair, Steady (meet pair)) :
    Steady (settle engine meet pair data resolutions) := by
  unfold settle
  exact steady_bind
    (compareResolved_steady (fun pair => steady_bind (hmeet pair) fun _ => steady_pure _) _ _ _)
    enter_steady

theorem arrive_steady (pair : Pair) : Steady (arrive engine pair) := by
  unfold arrive
  split
  · exact steady_bind (steady_onEngine _) fun _ => steady_bind (steady_onEngine _) fun _ =>
      steady_pure _
  · exact compare_steady _ _

theorem meet_steady (depth : Nat) : ∀ pair, Steady (meet engine depth pair) := by
  induction depth with
  | zero => exact fun _ => steady_throw _
  | succ depth ih =>
      intro pair
      unfold meet
      refine steady_bind (arrive_steady pair) fun out => ?_
      unfold follow
      split
      · exact steady_bind (steady_onEngine _) fun both => settle_steady ih
      · exact enter_steady _

/-- How a walk ends that is resumed. -/
theorem Ends.resumed {depth : Nat} {suspension : Suspension} {resolved : Resolved}
    {continuation : Continuation} {state : Engine.State}
    (hawait : suspension.await engine walk.engine = (.ok resolved, continuation, state))
    (h : Onward (fun _ => Ends engine none) log result
      (resumeWithin engine depth continuation resolved { walk with engine := state })) :
    Ends engine (some suspension) walk
      (compareAll (Frame.path walk.frames) (resumedContext continuation)
        (resumedHops (cached { walk with engine := state }) depth continuation resolved) ++ log)
      result := by
  cases hwork : resumeWithin engine depth continuation resolved { walk with engine := state } with
  | ok _ after =>
      rw [hwork] at h
      exact .resume hawait hwork h
  | error e after =>
      rw [hwork] at h
      obtain ⟨hfinished, rfl, rfl⟩ := h
      rw [List.append_nil]
      exact .resumeFails hawait hwork hfinished

/-- How a walk ends that pauses if `out` is handed out. -/
def Comes (engine : Engine) (out : Option Suspension) (walk : Walk) (log : List Visit)
    (result : Except FoldError Walk) : Prop :=
  Ends engine out (walk.handingOut out) log result

theorem withPause_handingOut {suspension : Suspension} (hpause : walk.pause = .going) :
    { walk.handingOut (some suspension) with pause := .going } = walk := by
  cases walk
  cases hpause
  rfl

/-- A component is entered, also after a pause for its hooks. -/
theorem comes_of_enter
    (hout : out = none ∨ ∃ pending, out = some (.component pending)) (hpause : walk.pause = .going)
    (h : Onward (fun _ => Ends engine none) log result (enter engine out walk)) :
    Comes engine out walk log result := by
  obtain rfl | ⟨pending, rfl⟩ := hout
  · exact h
  rcases hboth : Engine.prefetchBoth pending.instances.static pending.instances.dynamic with
    ⟨outcome, static, dynamic⟩
  have hawait : (Suspension.component pending).await engine walk.engine =
      (outcome.map fun _ => .prefetched, .component { pending with instances := ⟨static, dynamic⟩ },
        walk.engine) := by
    simp only [Suspension.await, hboth]
  cases outcome with
  | error e =>
      rw [enter_component_error hboth] at h
      obtain ⟨hfinished, rfl, rfl⟩ := h
      exact .awaitFails hawait fun he => hfinished (congrArg _ he)
  | ok _ =>
      refine @Ends.resumed engine (walk.handingOut (some (.component pending))) log result 0 _ _ _ _
        hawait ?_
      show Onward _ log result
        (resumeWithin engine 0 _ _ (walk.handingOut (some (.component pending))))
      rw [resumeWithin_component rfl, withPause_handingOut hpause]
      rwa [enter_component hboth] at h

/-- A walk goes on with what two async components resolved to. -/
theorem comes_of_resolved {depth : Nat} {asked : Twin Engine.Asked} {state : Engine.State}
    (hpause : walk.pause = .going)
    (hboth : engine.resolveBoth asked.static asked.dynamic walk.engine =
      .ok (resolutions.static, resolutions.dynamic) state)
    (h : Onward (Comes engine) log result
      (compareResolved engine (compare engine depth) pair data resolutions
        { walk with engine := state })) :
    Comes engine (some (.deferred pair data asked)) walk
      (compareAll (Frame.path walk.frames) pair.context
        (resolvedViews (hops (cached { walk with engine := state }) depth) resolutions) ++ log)
      result := by
  have hawait : (Suspension.deferred pair data asked).await engine walk.engine =
      (.ok (.deferred resolutions), .deferred pair data, state) := by
    simp only [Suspension.await, hboth]
  refine @Ends.resumed engine (walk.handingOut (some (.deferred pair data asked))) log result depth
    _ _ _ _ hawait ?_
  have hgoing : ({ walk with engine := state } : Walk).pause = .going := hpause
  show Onward _ log result (resumeWithin engine depth _ _
    (handingOut { walk with engine := state } (some (.deferred pair data asked))))
  rw [resumeWithin_deferred rfl, withPause_handingOut hgoing]
  cases hwork : compareResolved engine (compare engine depth) pair data resolutions
      { walk with engine := state } with
  | error e after =>
      rw [hwork] at h
      exact h
  | ok out after =>
      rw [hwork] at h
      cases out with
      | none => exact h
      | some suspension => exact .handOut rfl h

theorem settle_views (meet : Pair → Walking Unit) (static dynamic : View) :
    settle engine meet pair data ⟨.view static, .view dynamic⟩ =
      meet { pair with view := ⟨static, dynamic⟩ } := by
  show ((meet _ >>= fun _ => pure none) >>= enter engine) = _
  rw [bind_assoc]
  simp only [pure_bind]
  exact bind_pure_unit

theorem compareResolved_congr (compare other : Pair → Walking (Option Suspension))
    (hviews : ∀ static dynamic, resolutions ≠ ⟨.view static, .view dynamic⟩) :
    compareResolved engine compare pair data resolutions =
      compareResolved engine other pair data resolutions := by
  unfold compareResolved
  split
  · rfl
  · next hstatic hdynamic => exact absurd (Twin.eq_mk hstatic hdynamic) (hviews _ _)
  · rfl
  · rfl

/-- A meeting amounts to a comparison and what comes of it. -/
def ComesAs (engine : Engine) (depth : Nat) : Prop :=
  ∀ pair walk log result, walk.pause = .going →
    Onward (fun _ => Ends engine none) log result (meet engine depth pair walk) →
    ∃ within later,
      compareAll (Frame.path walk.frames) pair.context
          (met engine depth pair.view walk.engine) ++ log =
        compareAll (Frame.path walk.frames) pair.context
          (hops walk.cached within pair.view) ++ later ∧
      Onward (Comes engine) later result (compare engine within pair walk)

theorem ComesAs.settle {depth : Nat} (h : ComesAs engine depth) (hpause : walk.pause = .going)
    (hsettle : Onward (fun _ => Ends engine none) log result
      (settle engine (meet engine depth) pair data resolutions walk)) :
    ∃ within later,
      compareAll (Frame.path walk.frames) pair.context
          (resolvedViews (met engine depth · walk.engine) resolutions) ++ log =
        compareAll (Frame.path walk.frames) pair.context
          (resolvedViews (hops walk.cached within) resolutions) ++ later ∧
      Onward (Comes engine) later result
        (compareResolved engine (compare engine within) pair data resolutions walk) := by
  by_cases hviews : ∃ static dynamic, resolutions = ⟨.view static, .view dynamic⟩
  · obtain ⟨static, dynamic, rfl⟩ := hviews
    rw [settle_views] at hsettle
    exact h { pair with view := ⟨static, dynamic⟩ } walk log result hpause hsettle
  · have hviews (static dynamic : View) : resolutions ≠ ⟨.view static, .view dynamic⟩ :=
      fun heq => hviews ⟨static, dynamic, heq⟩
    refine ⟨0, log, by rw [resolvedViews_eq_nil hviews, resolvedViews_eq_nil hviews], ?_⟩
    unfold Walk.settle at hsettle
    rw [onward_bind, compareResolved_congr _ (compare engine 0) hviews] at hsettle
    refine hsettle.mono (leads_of_eq (fun out after hwork log result h => ?_) fun _ _ _ => trivial)
    have hgoing : after.pause = .going :=
      (leads_ok (compareResolved_steady (compare_steady 0) _ _ _ _) hwork).1.trans hpause
    refine comes_of_enter ?_ hgoing h
    exact (leads_ok (compareResolved_out hviews) hwork).imp_right fun ⟨pending, hout, _⟩ =>
      ⟨pending, hout⟩

theorem comes_of_follow {depth : Nat} {asked : Twin Engine.Asked} (hcomes : ComesAs engine depth)
    (hpause : walk.pause = .going)
    (h : Onward (fun _ => Ends engine none) log result
      (follow engine (meet engine depth) (some (.deferred pair data asked)) walk)) :
    Comes engine (some (.deferred pair data asked)) walk
      (compareAll (Frame.path walk.frames) pair.context
        (followed engine (met engine depth) (some (.deferred pair data asked)) walk.engine) ++ log)
      result := by
  cases hboth : engine.resolveBoth asked.static asked.dynamic walk.engine with
  | error e state =>
      have hresolve : onEngine (engine.resolveBoth asked.static asked.dynamic) walk =
          .error (.render e) { walk with engine := state } := by
        simp only [onEngine, hboth]
      have hawait : (Suspension.deferred pair data asked).await engine walk.engine =
          (.error e, .deferred pair data, state) := by
        simp only [Suspension.await, hboth]
      rw [show follow engine (meet engine depth) (some (.deferred pair data asked)) walk = _ from
        bind_of_error hresolve] at h
      obtain ⟨hfinished, rfl, rfl⟩ := h
      simp only [followed, hboth]
      exact .awaitFails hawait fun he => hfinished (congrArg _ he)
  | ok both state =>
      obtain ⟨static, dynamic⟩ := both
      have hresolve : onEngine (engine.resolveBoth asked.static asked.dynamic) walk =
          .ok (static, dynamic) { walk with engine := state } := by
        simp only [onEngine, hboth]
      rw [show follow engine (meet engine depth) (some (.deferred pair data asked)) walk = _ from
        bind_of_ok hresolve] at h
      obtain ⟨within, later, hlog, honward⟩ :=
        @ComesAs.settle engine pair data ⟨static, dynamic⟩ { walk with engine := state } log result
          depth hcomes hpause h
      simp only [followed, hboth]
      rw [show compareAll (Frame.path walk.frames) pair.context
        (resolvedViews (met engine depth · state) ⟨static, dynamic⟩) ++ log = _ from hlog]
      exact comes_of_resolved hpause hboth honward

/-- Meeting a pair is part of the way to the end, pauses and all. -/
theorem comesAs (depth : Nat) : ComesAs engine depth := by
  -- By induction on the async components that are met through one another.
  induction depth with
  | zero => exact fun _ _ _ _ _ h => absurd rfl h.1
  | succ depth ih =>
      intro pair walk log result hpause h
      by_cases hview : BothDeferred pair.view
      · obtain ⟨id, data, id', data', hview⟩ := hview
        have hmeet : meet engine (depth + 1) pair walk = follow engine (meet engine depth)
            (some (.deferred pair ⟨data, data'⟩ (walk.askedAt id id'))) walk :=
          bind_of_ok (arrive_deferred hview)
        rw [hmeet] at h
        cases hanswered : Engine.answered? (walk.askedAt id id') with
        | some resolutions =>
            rw [follow_answered hanswered] at h
            obtain ⟨within, later, hlog, honward⟩ := ih.settle hpause h
            refine ⟨within + 1, later, ?_, ?_⟩
            · rw [met_deferred hview pair, followed_answered hanswered, hops_deferred walk hview,
                hanswered]
              exact congrArg (List.cons _) hlog
            · rw [compare_deferred engine walk hview, hanswered]
              exact honward
        | none =>
            refine ⟨1, compareAll (Frame.path walk.frames) pair.context (followed engine
              (met engine depth) (some (.deferred pair ⟨data, data'⟩ (walk.askedAt id id')))
              walk.engine) ++ log, ?_, ?_⟩
            · rw [met_deferred hview pair, hops_deferred walk hview, hanswered]
              rfl
            · rw [compare_deferred engine walk hview, hanswered]
              dsimp only
              rw [arrive_deferred hview]
              exact comes_of_follow ih hpause h
      · have hplain := compare_out engine walk hview 0
        refine ⟨1, log, ?_, ?_⟩
        · obtain ⟨hhops, -⟩ := plain_lists engine hview 0 walk.cached walk.engine
          obtain ⟨-, hmet⟩ := plain_lists engine hview depth walk.cached walk.engine
          rw [hhops, hmet]
        · rw [meet, onward_bind, ← compare_of_plain hview 0] at h
          refine h.mono (leads_of_eq (fun out after hwork log result h => ?_) fun _ _ _ => trivial)
          have hgoing : after.pause = .going :=
            (leads_ok (compare_steady 1 pair walk) hwork).1.trans hpause
          obtain rfl | ⟨pending, rfl, -⟩ := leads_ok hplain hwork
          · exact comes_of_enter (.inl rfl) hgoing h
          · exact comes_of_enter (.inr ⟨pending, rfl⟩) hgoing h

/-- How a walk ends that compares a pair of the innermost frame, if it is known how it
    ends when it meets the pair. -/
theorem ends_of_meet {depth : Nat} {frame : Frame} {rest : List Frame} {left : Pairs}
    (hpause : walk.pause = .going) (hframes : walk.frames = frame :: rest)
    (hnext : frame.pairs.next? = some (pair, left))
    (h : Onward (fun _ => Ends engine none) log result
      (meet engine depth pair { walk with frames := frame.withPairs left :: rest })) :
    Ends engine none walk (compareAll (Frame.path (frame.withPairs left :: rest)) pair.context
      (met engine depth pair.view walk.engine) ++ log) result := by
  obtain ⟨within, later, hlog, honward⟩ := comesAs depth pair
    { walk with frames := frame.withPairs left :: rest } log result hpause h
  rw [show compareAll (Frame.path (frame.withPairs left :: rest)) pair.context
    (met engine depth pair.view walk.engine) ++ log = _ from hlog]
  cases hwork : compare engine within pair { walk with frames := frame.withPairs left :: rest } with
  | ok out after =>
      rw [hwork] at honward
      exact .compare hpause hframes hnext hwork honward
  | error e after =>
      rw [hwork] at honward
      obtain ⟨hfinished, rfl, rfl⟩ := honward
      rw [List.append_nil]
      exact .compareFails hpause hframes hnext hwork hfinished

/-- A walk that does not pause ends as one that does. -/
theorem Rounds.ends (h : Rounds engine walk log result) (hpause : walk.pause = .going) :
    Ends engine none walk log result := by
  induction h with
  | done hframes => exact .done hpause hframes
  | @meet walk depth frame rest pair left after log result hframes hnext hwork hrest ih =>
      refine ends_of_meet hpause hframes hnext ?_
      rw [hwork]
      exact ih ((leads_ok (meet_steady _ _ _) hwork).1.trans hpause)
  | @meetFails walk depth frame rest pair left e after hframes hnext hwork hfinished =>
      refine List.append_nil (compareAll _ _ _) ▸ ends_of_meet hpause hframes hnext ?_
      rw [hwork]
      exact ⟨hfinished, rfl, rfl⟩
  | finish hframes hnext hwork hrest ih =>
      exact .finish hpause hframes hnext hwork
        (ih ((leads_ok (finish_steady _ _) hwork).1.trans hpause))
  | finishFails hframes hnext hwork hfinished =>
      exact .finishFails hpause hframes hnext hwork hfinished

end Onward

/-- A walk ends the same way, with the same record, if it is resumed at every pause and
    if it does not pause at all. -/
theorem ends_iff_rounds {engine : Engine} {walk : Walk} {log : List Visit}
    {result : Except FoldError Walk} (hpause : walk.pause = .going) :
    Ends engine none walk log result ↔ Rounds engine walk log result := by
  refine ⟨fun h => ?_, fun h => h.ends hpause⟩
  have hproceeds := h.proceeds
  simpa only [Proceeds, hpause] using hproceeds

end Walk

end RenderFold
