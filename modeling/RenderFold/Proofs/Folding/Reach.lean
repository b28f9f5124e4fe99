import RenderFold.Proofs.Folding.Folds
import RenderFold.Proofs.Folding.Leads

/-!
# Reachable Walks

The states that a walk goes through, with a record of what was compared on
the way. A walk makes a move when it compares the next pair, closes a frame,
hands out a suspension, or goes on with what a suspension waited for. A move
may fail, and the state it leaves behind is one of a walk as well, so a walk
may even go on after a failure.

Two things are recorded: every pair that is compared, with the instances that
its sides come from, and every two async components that resolved. A pair of
async components that resolve to views is followed by the pair of these
views, which is at the same place.

## Main definitions

* `Event`: What is recorded.
* `Walk.trail`: What comparing a pair records.
* `Walk.Reaches`: The walks that can be reached, with the record and the
  suspension that was handed out.

## Theorems

* `Walk.run_reaches`: A run only goes through walks that can be reached.
-/

namespace RenderFold

/-- What is recorded about a walk. -/
inductive Event where
  /-- A pair was compared; its sides come from the given instances. -/
  | compared (pair : Pair) (active : Option (Twin Instance))
  /-- Two async components resolved. -/
  | settled (both : Settled)
  deriving Inhabited

namespace Event

/-- What async components resolved to, in order. -/
def answers (events : List Event) : List Settled :=
  events.filterMap fun
    | .settled both => some both
    | .compared .. => none

/-- The expressions of the pairs that were compared. -/
def slots (events : List Event) : List Script.Id :=
  events.filterMap fun
    | .compared pair _ => some pair.slot
    | .settled _ => none

end Event

/-- What is left behind by work that may fail: its result, if it has one, and
    the state. -/
inductive Leaves {ε σ α : Type} (result : EStateM.Result ε σ α) : Option α → σ → Prop where
  | ok {a : α} {state : σ} (h : result = .ok a state) : Leaves result (some a) state
  | error {e : ε} {state : σ} (h : result = .error e state) : Leaves result none state

namespace Walk

/-- What is recorded when two async components have resolved. Two views are
    compared next. -/
def settleTrail (compare : Pair → List Event) (pair : Pair) (resolutions : Twin Resolution) :
    List Event :=
  match pair.view.static, pair.view.dynamic with
  | .deferred id _, .deferred id' _ =>
    .settled ⟨⟨id, id'⟩, resolutions⟩ ::
      match resolutions.static, resolutions.dynamic with
      | .view static, .view dynamic => compare { pair with view := ⟨static, dynamic⟩ }
      | _, _ => []
  | _, _ => []

/-- What is recorded when a pair is compared. Async components that have
    resolved are looked through at once. -/
def trail (cached : FactoryId → Option Resolution) (active : Option (Twin Instance)) :
    Nat → Pair → List Event
  | 0, pair => [.compared pair active]
  | depth + 1, pair =>
    .compared pair active ::
      match pair.view.static, pair.view.dynamic with
      | .deferred id _, .deferred id' _ =>
        match cached id, cached id' with
        | some static, some dynamic =>
          settleTrail (trail cached active depth) pair ⟨static, dynamic⟩
        | _, _ => []
      | _, _ => []

/-- What the factories have resolved to so far. -/
def cached (walk : Walk) (id : FactoryId) : Option Resolution := (walk.engine.factories id).cached

/-- What is recorded when a walk goes on at a continuation. -/
def resumeTrail (walk : Walk) : Continuation → Resolved → List Event
  | .deferred pair _, .deferred resolutions =>
    settleTrail (trail walk.cached walk.active maxChain) pair resolutions
  | _, _ => []

/-- A walk that has handed out a suspension, if there is one, waits. -/
def handingOut (walk : Walk) : Option Suspension → Walk
  | none => walk
  | some _ => { walk with pause := .waiting }

/-- The walks that can be reached from `start`, with what was recorded on the
    way and the suspension that is handed out. -/
inductive Reaches (engine : Engine) (start : Walk) :
    List Event → Option Suspension → Walk → Prop where
  | start : Reaches engine start [] none start
  | compare {events walk frame rest pair left outcome after}
      (h : Reaches engine start events none walk) (hpause : walk.pause = .going)
      (hframes : walk.frames = frame :: rest) (hnext : frame.pairs.next? = some (pair, left))
      (hleaves : Leaves (compare engine maxChain pair
        { walk with frames := frame.withPairs left :: rest }) outcome after) :
      Reaches engine start (events ++ trail walk.cached walk.active maxChain pair) outcome.join
        (after.handingOut outcome.join)
  | finish {events walk frame rest outcome after}
      (h : Reaches engine start events none walk) (hpause : walk.pause = .going)
      (hframes : walk.frames = frame :: rest) (hnext : frame.pairs.next? = none)
      (hleaves : Leaves (finish engine frame { walk with frames := rest }) outcome after) :
      Reaches engine start events none after
  | handOut {events walk suspension} (h : Reaches engine start events none walk)
      (hpause : walk.pause = .parked suspension) :
      Reaches engine start events (some suspension) { walk with pause := .waiting }
  | resume {events walk suspension resolved continuation state outcome after}
      (h : Reaches engine start events (some suspension) walk)
      (hawait : suspension.await engine walk.engine = (.ok resolved, continuation, state))
      (hleaves : Leaves (resume engine continuation resolved { walk with engine := state })
        outcome after) :
      Reaches engine start
        (events ++ resumeTrail { walk with engine := state } continuation resolved) none after
  | fail {events walk suspension e continuation state}
      (h : Reaches engine start events (some suspension) walk)
      (hawait : suspension.await engine walk.engine = (.error e, continuation, state)) :
      Reaches engine start events none { walk with engine := state }

/-- The suspension that is handed out when a walk pauses. -/
def Progress.suspension? : Progress → Option Suspension
  | .done => none
  | .suspended suspension => some suspension

section Run

variable {engine : Engine} {start walk : Walk} {events : List Event}

theorem leads_await {suspension : Suspension}
    {ok : Except RenderError Resolved × Continuation → Walk → Prop} {bad : Walk → Prop} :
    Leads (await engine suspension) walk ok bad ↔
      match suspension.await engine walk.engine with
      | (outcome, continuation, state) =>
        ok (outcome, continuation) { walk with engine := state } := Iff.rfl

/-- Going on leads to a walk that can be reached. It is not paused if it is
    over. -/
theorem advanceFor_reaches (steps : Nat) (h : Reaches engine start events none walk)
    (hpause : walk.pause = .going) :
    Leads (advanceFor engine steps) walk
      (fun progress after => ∃ events', Reaches engine start events' progress.suspension? after)
      (fun after => ∃ events', Reaches engine start events' none after) := by
  -- By induction on the steps that are left. A walk that has failed or paused is
  -- not asked for more.
  induction steps generalizing walk events with
  | zero => exact ⟨events, h⟩
  | succ steps ih =>
      unfold advanceFor
      rw [leads_bind, leads_get]
      split
      · exact ⟨events, h⟩
      · next frame rest hframes =>
          split
          · next pair left hnext =>
              rw [leads_bind, leads_modify, leads_bind]
              refine leads_of_eq (fun found after hwork => ?_) fun e after hwork => ?_
              · have hmove := Reaches.compare h hpause hframes hnext (.ok hwork)
                have hsteady := leads_ok (compare_steady _ _ _) hwork
                cases found with
                | none => exact ih hmove (hsteady.1.trans hpause)
                | some suspension => exact ⟨_, hmove⟩
              · exact ⟨_, .compare h hpause hframes hnext (.error hwork)⟩
          · next hnext =>
              rw [leads_bind, leads_modify, leads_bind]
              refine leads_of_eq (fun found after hwork => ?_) fun e after hwork => ?_
              · have hmove := Reaches.finish h hpause hframes hnext (.ok hwork)
                have hsteady := leads_ok (finish_steady _ _) hwork
                exact ih hmove (hsteady.1.trans hpause)
              · exact ⟨_, .finish h hpause hframes hnext (.error hwork)⟩

theorem advance_reaches (h : Reaches engine start events none walk) :
    Leads (advance engine) walk
      (fun progress after => ∃ events', Reaches engine start events' progress.suspension? after)
      (fun after => ∃ events', Reaches engine start events' none after) := by
  unfold advance
  rw [leads_bind, leads_get]
  split
  · next suspension hpause => exact ⟨events, .handOut h hpause⟩
  · exact ⟨events, h⟩
  · next hpause => exact advanceFor_reaches _ h hpause

/-- A run only goes through walks that can be reached, and ends at one, which has
    the tree for its result. -/
theorem runFor_reaches (pauses : Nat) (h : Reaches engine start events none walk) :
    Leads (runFor engine pauses) walk
      (fun tree after => after.result = .ok tree ∧
        ∃ events', Reaches engine start events' none after)
      (fun after => ∃ events' out, Reaches engine start events' out after) := by
  -- By induction on the pauses that are left. What a pause waits for is run with
  -- the engine's state, and the walk goes on from there.
  induction pauses generalizing walk events with
  | zero => exact ⟨events, none, h⟩
  | succ pauses ih =>
      unfold runFor
      rw [leads_bind]
      refine leads_mono (advance_reaches h) (fun progress after hafter => ?_) fun after hafter => ?_
      · obtain ⟨events', hafter⟩ := hafter
        cases progress with
        | done =>
            dsimp only
            rw [leads_bind, leads_get]
            split
            · next tree hresult => exact ⟨hresult, events', hafter⟩
            · exact ⟨events', none, hafter⟩
        | suspended suspension =>
            have hafter : Reaches engine start events' (some suspension) after := hafter
            dsimp only
            rw [leads_bind, leads_await]
            rcases hawait : suspension.await engine after.engine with
              ⟨outcome, continuation, state⟩
            dsimp only
            rw [leads_bind, leads_ofExcept]
            cases outcome with
            | error e => exact ⟨events', none, .fail hafter hawait⟩
            | ok resolved =>
                dsimp only
                rw [leads_bind]
                refine leads_of_eq (fun _ last hwork => ?_) fun e last hwork => ?_
                · exact ih (.resume hafter hawait (.ok hwork))
                · exact ⟨_, none, .resume hafter hawait (.error hwork)⟩
      · obtain ⟨events', hafter⟩ := hafter
        exact ⟨events', none, hafter⟩

/-- A run of a walk ends at one that can be reached from it. -/
theorem run_reaches (start : Walk) :
    Leads (run engine) start
      (fun tree after => after.result = .ok tree ∧ ∃ events, Reaches engine start events none after)
      (fun after => ∃ events out, Reaches engine start events out after) :=
  runFor_reaches _ .start

end Run

end Walk

end RenderFold
