import RenderFold.Proofs.Folding.Reach

/-!
# Walks to Their End

What a walk does until it is over or fails, with a record of what happens on
the way: which nodes are compared, and which frames are closed. Every turn
of the loop is one step here: the next pair of the innermost frame is
compared, or the frame is closed, or a suspension is handed out, or its work
is run and the walk goes on with what came of it.

Nothing limits how many steps there are, or how many async components may
resolve to one another. The limits that a run has only show in that it may
say that it did not finish.

## Main definitions

* `Visit`: What is recorded.
* `Walk.Ends`: How a walk ends, with the record.
* `Engine.Folds`: What comes of folding.

## Theorems

* `Walk.runFor_comesTo`: What comes of a run comes of the walk.
* `Engine.fold_folds`: What folding gives comes of it, unless it did not finish.
-/

namespace RenderFold

/-- What happens on a walk. Where it happens is told by how many nodes have been
    taken from each of the frames around, innermost first. -/
inductive Visit where
  /-- Two nodes are compared; `context` is what they inherit from their place. -/
  | compared (path : List Nat) (view : Twin View) (context : Twin TagContext)
  /-- A frame of some kind is closed. -/
  | finished (path : List Nat) (kind : String)
  deriving Inhabited

theorem Twin.eq_mk {α : Type} {twin : Twin α} {static dynamic : α} (hstatic : twin.static = static)
    (hdynamic : twin.dynamic = dynamic) : twin = ⟨static, dynamic⟩ := by
  rw [← hstatic, ← hdynamic]

/-- How many nodes have been taken from each frame. -/
def Frame.path (frames : List Frame) : List Nat :=
  frames.map fun frame => frame.pairs.size - frame.pairs.left.length

namespace Walk

/-- The nodes that are compared next when two async components have resolved: the
    views they resolved to, at the same place, and what `look` says is compared
    with these. -/
def resolvedViews (look : Twin View → List (Twin View)) (resolutions : Twin Resolution) :
    List (Twin View) :=
  match resolutions.static, resolutions.dynamic with
  | .view static, .view dynamic => look ⟨static, dynamic⟩
  | _, _ => []

/-- The nodes that are compared when two nodes are, at the same place: these two,
    and the views that async components stand for which have resolved. -/
def hops (cached : FactoryId → Option Resolution) : Nat → Twin View → List (Twin View)
  | 0, view => [view]
  | depth + 1, view =>
    view ::
      match view.static, view.dynamic with
      | .deferred id _, .deferred id' _ =>
        match cached id, cached id' with
        | some static, some dynamic => resolvedViews (hops cached depth) ⟨static, dynamic⟩
        | _, _ => []
      | _, _ => []

/-- Comparisons at one place. -/
def compareAll (path : List Nat) (context : Twin TagContext) (views : List (Twin View)) :
    List Visit :=
  views.map fun view => .compared path view context

/-- The nodes that are compared when a walk goes on at a continuation. -/
def resumedHops (cached : FactoryId → Option Resolution) (depth : Nat) :
    Continuation → Resolved → List (Twin View)
  | .deferred _ _, .deferred resolutions => resolvedViews (hops cached depth) resolutions
  | _, _ => []

/-- What the nodes at which a walk goes on inherit. -/
def resumedContext : Continuation → Twin TagContext
  | .component pending => pending.context
  | .deferred pair _ => pair.context

/-- Go on at a continuation, where views are compared through at most `depth`
    async components. -/
def resumeWithin (engine : Engine) (depth : Nat) (continuation : Continuation)
    (resolved : Resolved) : Walking Unit := do
  match (← get).pause with
  | .waiting =>
    modify fun walk => { walk with pause := .going }
    match continuation, resolved with
    | .component pending, .prefetched => enterComponent engine pending
    | .deferred pair data, .deferred resolutions =>
      match ← compareResolved engine (compare engine depth) pair data resolutions with
      | some suspension => modify fun walk => { walk with pause := .parked suspension }
      | none => return
    | _, _ => throw .resumeMismatch
  | _ => throw .resumeMismatch

theorem resume_eq (engine : Engine) : resume engine = resumeWithin engine maxChain := rfl

/-- How a walk ends from here on if every suspension is resumed with what its work
    gives: it is over, or a step fails. `out` is the suspension that was handed
    out. The error that says that evaluation did not finish does not count. -/
inductive Ends (engine : Engine) :
    Option Suspension → Walk → List Visit → Except FoldError Walk → Prop where
  | done {walk} (hpause : walk.pause = .going) (hframes : walk.frames = []) :
      Ends engine none walk [] (.ok walk)
  | compare {walk depth frame rest pair left out after log result} (hpause : walk.pause = .going)
      (hframes : walk.frames = frame :: rest) (hnext : frame.pairs.next? = some (pair, left))
      (hwork : compare engine depth pair { walk with frames := frame.withPairs left :: rest } =
        .ok out after)
      (hrest : Ends engine out (after.handingOut out) log result) :
      Ends engine none walk
        (compareAll (Frame.path (frame.withPairs left :: rest)) pair.context
          (hops walk.cached depth pair.view) ++ log) result
  | compareFails {walk depth frame rest pair left e after} (hpause : walk.pause = .going)
      (hframes : walk.frames = frame :: rest) (hnext : frame.pairs.next? = some (pair, left))
      (hwork : compare engine depth pair { walk with frames := frame.withPairs left :: rest } =
        .error e after)
      (hfinished : e ≠ .render .unfinished) :
      Ends engine none walk
        (compareAll (Frame.path (frame.withPairs left :: rest)) pair.context
          (hops walk.cached depth pair.view)) (.error e)
  | finish {walk frame rest after log result} (hpause : walk.pause = .going)
      (hframes : walk.frames = frame :: rest) (hnext : frame.pairs.next? = none)
      (hwork : finish engine frame { walk with frames := rest } = .ok () after)
      (hrest : Ends engine none after log result) :
      Ends engine none walk (.finished (Frame.path rest) frame.kind :: log) result
  | finishFails {walk frame rest e after} (hpause : walk.pause = .going)
      (hframes : walk.frames = frame :: rest) (hnext : frame.pairs.next? = none)
      (hwork : finish engine frame { walk with frames := rest } = .error e after)
      (hfinished : e ≠ .render .unfinished) :
      Ends engine none walk [.finished (Frame.path rest) frame.kind] (.error e)
  | handOut {walk suspension log result} (hpause : walk.pause = .parked suspension)
      (hrest : Ends engine (some suspension) { walk with pause := .waiting } log result) :
      Ends engine none walk log result
  | resume {walk suspension depth resolved continuation state after log result}
      (hawait : suspension.await engine walk.engine = (.ok resolved, continuation, state))
      (hwork : resumeWithin engine depth continuation resolved { walk with engine := state } =
        .ok () after)
      (hrest : Ends engine none after log result) :
      Ends engine (some suspension) walk
        (compareAll (Frame.path walk.frames) (resumedContext continuation)
          (resumedHops (cached { walk with engine := state }) depth continuation resolved) ++ log)
        result
  | resumeFails {walk suspension depth resolved continuation state e after}
      (hawait : suspension.await engine walk.engine = (.ok resolved, continuation, state))
      (hwork : resumeWithin engine depth continuation resolved { walk with engine := state } =
        .error e after)
      (hfinished : e ≠ .render .unfinished) :
      Ends engine (some suspension) walk
        (compareAll (Frame.path walk.frames) (resumedContext continuation)
          (resumedHops (cached { walk with engine := state }) depth continuation resolved))
        (.error e)
  | awaitFails {walk suspension e continuation state}
      (hawait : suspension.await engine walk.engine = (.error e, continuation, state))
      (hfinished : e ≠ .unfinished) :
      Ends engine (some suspension) walk [] (.error (.render e))

/-- What comes of a walk that is not waiting: its result if it comes to its end, and
    the error otherwise. -/
def ComesTo (engine : Engine) (walk : Walk) (result : Except FoldError FoldedTree) : Prop :=
  ∃ log last, Ends engine none walk log last ∧ result = last.bind Walk.result

end Walk

namespace Engine

/-- What comes of folding. -/
def Folds (engine : Engine) (options : Options) (root : Twin View) (state : Engine.State)
    (result : Except FoldError FoldedTree) : Prop :=
  Walk.ComesTo engine (.start options root state) result

end Engine

namespace Walk

variable {engine : Engine} {α β : Type}

theorem bind_of_ok {work : Walking α} {next : α → Walking β} {walk after : Walk} {a : α}
    (h : work walk = .ok a after) : (work >>= next) walk = next a after := by
  simp only [bind, EStateM.bind, h]

theorem bind_of_error {work : Walking α} {next : α → Walking β} {walk after : Walk} {e : FoldError}
    (h : work walk = .error e after) : (work >>= next) walk = .error e after := by
  simp only [bind, EStateM.bind, h]

theorem get_bind {next : Walk → Walking β} (walk : Walk) :
    ((get : Walking Walk) >>= next) walk = next walk walk := rfl

theorem modify_bind {change : Walk → Walk} {next : PUnit → Walking β} (walk : Walk) :
    ((modify change : Walking PUnit) >>= next) walk = next ⟨⟩ (change walk) := rfl

/-- Whatever a walk does from `after` on, it does from `walk` on, after `before`. -/
def LeadsUp (engine : Engine) (walk : Walk) (before : List Visit) (out : Option Suspension)
    (after : Walk) : Prop :=
  ∀ log result, Ends engine out after log result → Ends engine none walk (before ++ log) result

/-- Going on gave a result on the way to the end. -/
def Progresses (engine : Engine) (walk : Walk) : EStateM.Result FoldError Walk Progress → Prop
  | .ok .done after =>
    after.frames = [] ∧ after.pause = .going ∧ ∃ before, LeadsUp engine walk before none after
  | .ok (.suspended suspension) after =>
    after.pause = .waiting ∧ ∃ before, LeadsUp engine walk before (some suspension) after
  | .error e _ => e ≠ .render .unfinished → ∃ log, Ends engine none walk log (.error e)

theorem LeadsUp.trans {walk middle after : Walk} {before later : List Visit}
    {out : Option Suspension} (h : LeadsUp engine walk before none middle)
    (h' : LeadsUp engine middle later out after) :
    LeadsUp engine walk (before ++ later) out after := by
  intro log result hends
  rw [List.append_assoc]
  exact h _ result (h' log result hends)

/-- A step on the way to a walk that goes on from there. -/
theorem LeadsUp.progresses {walk after : Walk} {before : List Visit}
    {progress : EStateM.Result FoldError Walk Progress}
    (hstep : LeadsUp engine walk before none after) (h : Progresses engine after progress) :
    Progresses engine walk progress := by
  rcases progress with ⟨_ | suspension, last⟩ | ⟨e, last⟩
  · obtain ⟨hframes, hpause, later, hlater⟩ := h
    exact ⟨hframes, hpause, _, hstep.trans hlater⟩
  · obtain ⟨hpause, later, hlater⟩ := h
    exact ⟨hpause, _, hstep.trans hlater⟩
  · intro hfinished
    obtain ⟨log, hends⟩ := h hfinished
    exact ⟨_, hstep log _ hends⟩

/-- Going on for some steps is part of the way to the end. -/
theorem advanceFor_progresses (steps : Nat) {walk : Walk} (hpause : walk.pause = .going) :
    Progresses engine walk (advanceFor engine steps walk) := by
  -- By induction on the steps that are left. Each turn of the loop is a step on the
  -- way to the end.
  induction steps generalizing walk with
  | zero => exact fun hfinished => absurd rfl hfinished
  | succ steps ih =>
      rw [advanceFor, get_bind]
      rcases hframes : walk.frames with _ | ⟨frame, rest⟩
      · exact ⟨hframes, hpause, [], fun _ _ h => h⟩
      · dsimp only
        rcases hnext : frame.pairs.next? with _ | ⟨pair, left⟩
        · dsimp only
          rw [modify_bind]
          cases hwork : finish engine frame { walk with frames := rest } with
          | error e after =>
              rw [bind_of_error hwork]
              exact fun hfinished => ⟨_, .finishFails hpause hframes hnext hwork hfinished⟩
          | ok _ after =>
              rw [bind_of_ok hwork]
              have hgoing := (leads_ok (finish_steady _ _) hwork).1.trans hpause
              have hstep :
                  LeadsUp engine walk [.finished (Frame.path rest) frame.kind] none after :=
                fun log result h => .finish hpause hframes hnext hwork h
              exact hstep.progresses (ih hgoing)
        · dsimp only
          rw [modify_bind]
          cases hwork : compare engine maxChain pair
              { walk with frames := frame.withPairs left :: rest } with
          | error e after =>
              rw [bind_of_error hwork]
              exact fun hfinished => ⟨_, .compareFails hpause hframes hnext hwork hfinished⟩
          | ok out after =>
              rw [bind_of_ok hwork]
              have hgoing := (leads_ok (compare_steady _ _ _) hwork).1.trans hpause
              cases out with
              | none =>
                  have hstep : LeadsUp engine walk _ none after :=
                    fun log result h => .compare hpause hframes hnext hwork h
                  exact hstep.progresses (ih hgoing)
              | some suspension =>
                  exact ⟨rfl, _, fun log result h => .compare hpause hframes hnext hwork h⟩

theorem LeadsUp.comesTo {walk after : Walk} {before : List Visit}
    {result : Except FoldError FoldedTree} (hstep : LeadsUp engine walk before none after)
    (h : ComesTo engine after result) : ComesTo engine walk result := by
  obtain ⟨log, last, hends, hresult⟩ := h
  exact ⟨_, last, hstep log last hends, hresult⟩

/-- Going on is part of the way to the end, also if a suspension is to be handed
    out first. -/
theorem advance_progresses {walk : Walk} (hpause : walk.pause ≠ .waiting) :
    Progresses engine walk (advance engine walk) := by
  rw [advance, get_bind]
  cases hcase : walk.pause with
  | waiting => exact absurd hcase hpause
  | going => exact advanceFor_progresses _ hcase
  | parked suspension => exact ⟨rfl, [], fun log result h => .handOut hcase h⟩

/-- A walk that has gone on at a continuation does not wait. -/
theorem resumeWithin_pause {depth : Nat} {continuation : Continuation} {resolved : Resolved}
    {walk after : Walk}
    (hwork : resumeWithin engine depth continuation resolved walk = .ok () after) :
    after.pause ≠ .waiting := by
  have hleads : Leads (resumeWithin engine depth continuation resolved) walk
      (fun _ after => after.pause ≠ .waiting) (fun _ => True) := by
    unfold resumeWithin
    rw [leads_bind, leads_get]
    split
    · rw [leads_bind, leads_modify]
      split
      · next pending =>
          refine leads_mono (enterComponent_steady pending _) (fun _ last hlast => ?_)
            fun _ _ => trivial
          rw [hlast.1]
          exact Pause.noConfusion
      · next pair data resolutions =>
          rw [leads_bind]
          refine leads_mono (compareResolved_steady (compare_steady depth) pair data resolutions _)
            (fun found last hlast => ?_) fun _ _ => trivial
          cases found with
          | some suspension => exact Pause.noConfusion
          | none =>
              show last.pause ≠ .waiting
              rw [hlast.1]
              exact Pause.noConfusion
      · trivial
    · trivial
  exact leads_ok hleads hwork

theorem await_of_eq {suspension : Suspension} {walk : Walk} {outcome : Except RenderError Resolved}
    {continuation : Continuation} {state : Engine.State}
    (hawait : suspension.await engine walk.engine = (outcome, continuation, state)) :
    await engine suspension walk = .ok (outcome, continuation) { walk with engine := state } :=
  congrArg
    (fun awaited : Except RenderError Resolved × Continuation × Engine.State =>
      (.ok (awaited.1, awaited.2.1) { walk with engine := awaited.2.2 } :
        EStateM.Result FoldError Walk _)) hawait

/-- What comes of a run that finishes comes of the walk. -/
theorem runFor_comesTo (pauses : Nat) {walk : Walk} (hpause : walk.pause ≠ .waiting) :
    match runFor engine pauses walk with
    | .ok tree _ => ComesTo engine walk (.ok tree)
    | .error e _ => e ≠ .render .unfinished → ComesTo engine walk (.error e) := by
  -- By induction on the pauses that are left.
  induction pauses generalizing walk with
  | zero => exact fun hfinished => absurd rfl hfinished
  | succ pauses ih =>
      have hprogress : Progresses engine walk (advance engine walk) := advance_progresses hpause
      rw [runFor]
      cases hadvance : advance engine walk with
      | error e after =>
          rw [hadvance] at hprogress
          rw [bind_of_error hadvance]
          intro hfinished
          obtain ⟨log, hends⟩ := hprogress hfinished
          exact ⟨log, _, hends, rfl⟩
      | ok progress after =>
          rw [hadvance] at hprogress
          rw [bind_of_ok hadvance]
          cases progress with
          | done =>
              obtain ⟨hframes, hgoing, before, hbefore⟩ := hprogress
              have hcomes : ComesTo engine after after.result := ⟨[], _, .done hgoing hframes, rfl⟩
              dsimp only
              rw [get_bind]
              cases hresult : after.result with
              | ok tree => exact hbefore.comesTo (hresult ▸ hcomes)
              | error e => exact fun _ => hbefore.comesTo (hresult ▸ hcomes)
          | suspended suspension =>
              obtain ⟨hwaiting, before, hbefore⟩ := hprogress
              rcases hawait : suspension.await engine after.engine with
                ⟨outcome, continuation, state⟩
              dsimp only
              rw [bind_of_ok (await_of_eq hawait)]
              cases outcome with
              | error e =>
                  exact fun hfinished => ⟨_, _, hbefore _ _ (.awaitFails hawait fun h =>
                    hfinished (congrArg _ h)), rfl⟩
              | ok resolved =>
                  dsimp only
                  rw [show (ofExcept (.ok resolved) : Walking Resolved) = pure resolved from rfl,
                    pure_bind]
                  cases hresume : resume engine continuation resolved
                      { after with engine := state } with
                  | error e last =>
                      rw [bind_of_error hresume]
                      exact fun hfinished =>
                        ⟨_, _, hbefore _ _ (.resumeFails hawait hresume hfinished), rfl⟩
                  | ok _ last =>
                      rw [bind_of_ok hresume]
                      have hrest := ih (resumeWithin_pause hresume)
                      have hstep : LeadsUp engine walk (before ++ _) none last :=
                        fun log result h => by
                          rw [List.append_assoc]
                          exact hbefore _ _ (.resume hawait hresume h)
                      cases hrun : runFor engine pauses last with
                      | ok tree final =>
                          rw [hrun] at hrest
                          exact hstep.comesTo hrest
                      | error e final =>
                          rw [hrun] at hrest
                          exact fun hfinished => hstep.comesTo (hrest hfinished)

end Walk

namespace Engine

/-- What folding gives is what comes of it, unless it did not finish. -/
theorem fold_folds {engine : Engine} {options : Options} {root : Twin View} {state : Engine.State}
    (hfinished : (engine.fold options root state).1 ≠ .error (.render .unfinished)) :
    engine.Folds options root state (engine.fold options root state).1 := by
  have hpause : (Walk.start options root state).pause ≠ .waiting := Pause.noConfusion
  have hrun := @Walk.runFor_comesTo engine Walk.maxSteps _ hpause
  unfold fold at hfinished ⊢
  cases hwork : Walk.run engine (.start options root state) with
  | ok tree walk =>
      rw [show Walk.runFor engine _ _ = _ from hwork] at hrun
      exact hrun
  | error e walk =>
      rw [show Walk.runFor engine _ _ = _ from hwork] at hrun
      rw [hwork] at hfinished
      exact hrun fun h => hfinished (congrArg _ h)

end Engine

end RenderFold
