import RenderFold.Proofs.Folding.Closings
import RenderFold.Proofs.Folding.Driven
import RenderFold.Proofs.Folding.Entered

/-!
# Frames, Entries and Instances in Step

A walk keeps three things that grow and shrink together: the frames of the
components that it is inside of, the entries that are open, and the innermost
instances, with those around each component in its frame. They are in step
however the walk is driven. Entering a component changes all three or none
of them, and closing a frame never fails, since literals can always be read.

## Main definitions

* `Walk.Invariant`: What no call of whoever drives a walk breaks.
* `Walk.Layered`: Frames, entries and instances as they are entered, one
  component at a time.
* `Walk.InStep`: The same, read off a walk.

## Theorems

* `Walk.Driven.invariant`, `Walk.Reaches.invariant`: An invariant holds in every
  state.
* `Walk.Driven.frames_in_step`: Frames, entries and instances are always in step.
-/

namespace RenderFold

/-- The names of the components whose entries are open, innermost first. -/
def Builder.names (builder : Builder) : List String := builder.entries.map (·.component)

/-- Closing an entry leaves those around it open. -/
theorem Builder.names_close (builder : Builder) (slot : Script.Id) (function : RenderFunction)
    (isStatic : Bool) (stays : Script.Id → Bool) :
    (builder.close slot function isStatic stays).names = builder.names.tail := by
  rcases builder with ⟨_ | ⟨entry, _ | ⟨parent, rest⟩⟩, root⟩ <;> rfl

namespace Walk

variable {engine : Engine} {walk start : Walk} {calls : List Call}

/-- What no call breaks: neither comparing a pair nor closing a frame does, nor going on after a
    pause, whether they fail or not. -/
structure Invariant (engine : Engine) (holds : Walk → Prop) : Prop where
  pause : ∀ walk pause, holds walk → holds { walk with pause }
  work : ∀ walk state, holds walk → holds { walk with engine := state }
  compare : ∀ walk frame rest pair left, holds walk → walk.frames = frame :: rest →
    frame.pairs.next? = some (pair, left) →
    Leads (compare engine maxChain pair) { walk with frames := frame.withPairs left :: rest }
      (fun _ => holds) holds
  finish : ∀ walk frame rest, holds walk → walk.frames = frame :: rest →
    frame.pairs.next? = none →
    Leads (finish engine frame) { walk with frames := rest } (fun _ => holds) holds
  resume : ∀ walk continuation resolved, holds walk →
    Leads (resume engine continuation resolved) walk (fun _ => holds) holds

namespace Invariant

variable {holds : Walk → Prop} (h : Invariant engine holds)

include h

theorem advanceFor (steps : Nat) :
    ∀ walk, holds walk → Leads (advanceFor engine steps) walk (fun _ => holds) holds := by
  -- By induction on the steps that are left.
  induction steps with
  | zero => exact fun _ hwalk => hwalk
  | succ steps ih =>
      intro walk hwalk
      unfold Walk.advanceFor
      rw [leads_bind, leads_get]
      split
      · exact hwalk
      · next frame rest hframes =>
          split
          · next pair left hnext =>
              rw [leads_bind, leads_modify, leads_bind]
              refine leads_mono (h.compare walk frame rest pair left hwalk hframes hnext)
                (fun found after hafter => ?_) fun _ hafter => hafter
              cases found with
              | none => exact ih after hafter
              | some suspension => exact h.pause after .waiting hafter
          · next hnext =>
              rw [leads_bind, leads_modify, leads_bind]
              exact leads_mono (h.finish walk frame rest hwalk hframes hnext)
                (fun _ after hafter => ih after hafter) fun _ hafter => hafter

theorem advance (hwalk : holds walk) :
    Leads (advance engine) walk (fun _ => holds) holds := by
  unfold Walk.advance
  rw [leads_bind, leads_get]
  split
  · exact h.pause walk .waiting hwalk
  · exact hwalk
  · exact h.advanceFor maxSteps walk hwalk

theorem perform (command : Command) (hwalk : holds walk) :
    Leads (perform engine command) walk (fun _ => holds) holds := by
  cases command with
  | advance =>
      unfold Walk.perform
      rw [leads_bind]
      exact h.advance hwalk
  | resume continuation resolved =>
      unfold Walk.perform
      rw [leads_bind]
      exact h.resume walk continuation resolved hwalk

end Invariant

/-- An invariant that holds at the start holds whatever calls are made. -/
theorem Driven.invariant {holds : Walk → Prop} (h : Driven engine start calls walk)
    (hkeeps : Invariant engine holds) (hstart : holds start) : holds walk := by
  -- By induction on the calls. What renders may have changed its state before each.
  induction h with
  | start => exact hstart
  | @call calls walk command state h ih =>
      have hleads := hkeeps.perform command (hkeeps.work walk state ih)
      cases hwork : Walk.perform engine command { walk with engine := state } with
      | ok out after =>
          rw [called_of_ok hwork]
          exact leads_ok hleads hwork
      | error e after =>
          rw [called_of_error hwork]
          exact leads_error hleads hwork

/-- So it does in every state that a run goes through. -/
theorem Reaches.invariant {holds : Walk → Prop} {events : List Event} {out : Option Suspension}
    (h : Reaches engine start events out walk) (hkeeps : Invariant engine holds)
    (hstart : holds start) : holds walk := by
  induction h with
  | start => exact hstart
  | @compare events walk frame rest pair left outcome after _ _ hframes hnext hleaves ih =>
      have hleads := hkeeps.compare walk frame rest pair left ih hframes hnext
      cases hleaves with
      | @ok found _ hwork =>
          have hafter := leads_ok hleads hwork
          cases found with
          | none => exact hafter
          | some suspension => exact hkeeps.pause after .waiting hafter
      | error hwork => exact leads_error hleads hwork
  | @finish events walk frame rest outcome after _ _ hframes hnext hleaves ih =>
      have hleads := hkeeps.finish walk frame rest ih hframes hnext
      cases hleaves with
      | ok hwork => exact leads_ok hleads hwork
      | error hwork => exact leads_error hleads hwork
  | @handOut events walk suspension _ _ ih => exact hkeeps.pause walk .waiting ih
  | @resume events walk suspension resolved continuation state outcome after _ _ hleaves ih =>
      have hleads := hkeeps.resume _ continuation resolved (hkeeps.work walk state ih)
      cases hleaves with
      | ok hwork => exact leads_ok hleads hwork
      | error hwork => exact leads_error hleads hwork
  | @fail events walk suspension e continuation state _ _ ih => exact hkeeps.work walk state ih

/-- What holds of a part of a walk is an invariant if comparing pairs and closing frames leave the
    part as it is. -/
theorem Untouched.invariant {γ : Type} {part : Walk → γ} (h : Untouched part) (holds : γ → Prop)
    (hpause : ∀ (walk : Walk) pause, part { walk with pause } = part walk)
    (hfinish : ∀ frame, Preserves part (Walk.finish engine frame)) :
    Invariant engine fun walk => holds (part walk) where
  pause walk pause hwalk := (hpause walk pause).symm ▸ hwalk
  work walk state hwalk := (h.engine walk state).symm ▸ hwalk
  compare walk _ _ pair _ hwalk _ _ :=
    (compare_preserves h maxChain pair).leads ((h.frames walk _).symm ▸ hwalk)
  finish walk frame rest hwalk _ _ := (hfinish frame).leads ((h.frames walk rest).symm ▸ hwalk)
  resume _ continuation resolved hwalk :=
    (resume_preserves h hpause continuation resolved).leads hwalk

/-- The components that were entered, innermost first, with the names of their entries and the
    innermost instances. Both instances of each could be rendered. -/
inductive Layered (engine : Engine) : List Boundary → List String → Option (Twin Instance) → Prop
    where
  | nil : Layered engine [] [] none
  | cons {boundaries names around} (pending : Pending) (rootSlot : Script.Id)
      (hstatic : (engine.render pending.instances.static).isOk)
      (hdynamic : (engine.render pending.instances.dynamic).isOk)
      (h : Layered engine boundaries names around) :
      Layered engine (pending.boundary rootSlot around :: boundaries)
        (pending.instances.static.component.name :: names) (some pending.instances)

/-- The frames, the entries and the instances are nested alike, and whatever the synthesizer
    remembers was read. -/
structure Aligned (engine : Engine) (walk : Walk) : Prop where
  layered : Layered engine walk.boundaries walk.builder.names walk.active
  synthesizer : walk.synthesizer.Sound

theorem Stays.layered {after : Walk} (h : Stays walk after)
    (hlayered : Layered engine walk.boundaries walk.builder.names walk.active) :
    Layered engine after.boundaries after.builder.names after.active := by
  rw [h.boundaries_eq, h.builder, h.active]
  exact hlayered

theorem Enters.layered {pending : Pending} {after : Walk} (h : Enters engine walk pending after)
    (hlayered : Layered engine walk.boundaries walk.builder.names walk.active) :
    Layered engine after.boundaries after.builder.names after.active := by
  obtain ⟨root, rootSlot, hstatic, hdynamic, hframes⟩ := h.frames
  rw [boundaries, hframes, h.builder, h.active]
  refine .cons pending rootSlot ?_ ?_ hlayered
  · rw [hstatic]
    rfl
  · rw [hdynamic]
    rfl

/-- The innermost frame may go if it is not a component's. -/
theorem Aligned.drop {frame : Frame} {rest : List Frame} (h : Aligned engine walk)
    (hframes : walk.frames = frame :: rest) (hframe : frame.boundary? = none) (program : Program) :
    Aligned engine { walk with frames := rest, program } := by
  have hboundaries : walk.boundaries = rest.filterMap Frame.boundary? := by
    rw [boundaries, hframes, List.filterMap_cons, hframe]
  have hlayered := h.layered
  rw [hboundaries] at hlayered
  exact ⟨hlayered, h.synthesizer⟩

theorem finish_aligned {frame : Frame} {rest : List Frame} (h : Aligned engine walk)
    (hframes : walk.frames = frame :: rest) :
    Leads (finish engine frame) { walk with frames := rest } (fun _ => Aligned engine)
      (Aligned engine) := by
  cases frame with
  | element slot closing pairs => exact h.drop hframes rfl _
  | group slot pairs => exact h.drop hframes rfl _
  | component boundary pairs =>
      -- Leaving a component cannot fail, since what is remembered was read.
      have hcloses := @finish_closes engine { walk with frames := rest } h.synthesizer
        (.component boundary pairs)
      refine leads_of_eq (fun _ after hwork => ?_) fun _ after hwork =>
        (leads_error hcloses hwork).elim
      obtain ⟨-, function, isStatic, stays, hbuilder⟩ :=
        leads_ok (leaveComponent_closes boundary _) hwork
      have hclosed := leads_ok hcloses hwork
      have hboundaries : walk.boundaries = boundary :: rest.filterMap Frame.boundary? := by
        rw [boundaries, hframes]
        rfl
      refine ⟨?_, hclosed.sound⟩
      rw [boundaries, hclosed.frames, hclosed.active, hbuilder, Builder.names_close]
      change Layered engine (rest.filterMap Frame.boundary?) walk.builder.names.tail boundary.around
      have hlayered := h.layered
      rw [hboundaries] at hlayered
      -- What is below the innermost component is what was there before it was entered.
      generalize walk.builder.names = names, walk.active = active at hlayered ⊢
      cases hlayered with
      | cons pending rootSlot _ _ hrest => exact hrest

variable (engine) in
/-- No call gets the frames, the entries and the instances out of step. -/
theorem aligned_invariant : Invariant engine (Aligned engine) where
  pause _ _ h := ⟨h.layered, h.synthesizer⟩
  work _ _ h := ⟨h.layered, h.synthesizer⟩
  compare walk frame rest pair left h hframes _ := by
    have hlayered : Layered engine (boundaries { walk with frames := frame.withPairs left :: rest })
        walk.builder.names walk.active := boundaries_withPairs hframes left ▸ h.layered
    have hsound : Leads (Walk.compare engine maxChain pair)
        { walk with frames := frame.withPairs left :: rest }
        (fun _ after => after.synthesizer.Sound) (fun after => after.synthesizer.Sound) :=
      (compare_preserves untouched_synthesizer maxChain pair).leads h.synthesizer
    have harrives := @compare_arrives engine maxChain pair
      { walk with frames := frame.withPairs left :: rest }
    refine leads_of_eq (fun out after hwork => ?_) fun _ after hwork => ?_
    · refine ⟨?_, leads_ok hsound hwork⟩
      obtain hstays | ⟨pending, henters⟩ := (leads_ok harrives hwork).either
      · exact hstays.layered hlayered
      · exact henters.layered hlayered
    · exact ⟨(leads_error harrives hwork).layered hlayered, leads_error hsound hwork⟩
  finish walk frame rest h hframes _ := finish_aligned h hframes
  resume walk continuation resolved h := by
    have hsound : Leads (Walk.resume engine continuation resolved) walk
        (fun _ after => after.synthesizer.Sound) (fun after => after.synthesizer.Sound) :=
      (resume_preserves untouched_synthesizer (fun _ _ => rfl) continuation resolved).leads
        h.synthesizer
    have harrives := @resume_arrives engine continuation resolved walk
    refine leads_of_eq (fun _ after hwork => ?_) fun _ after hwork => ?_
    · refine ⟨?_, leads_ok hsound hwork⟩
      obtain hstays | ⟨pending, henters⟩ := leads_ok harrives hwork
      · exact hstays.layered h.layered
      · exact henters.layered h.layered
    · exact ⟨(leads_error harrives hwork).layered h.layered, leads_error hsound hwork⟩

/-- A component was entered with some instances: both could be rendered, and the static one is
    the one that its frame keeps. -/
structure Boundary.EnteredWith (engine : Engine) (boundary : Boundary) (instances : Twin Instance) :
    Prop where
  static : instances.static = boundary.inst
  rendersStatic : (engine.render instances.static).isOk
  rendersDynamic : (engine.render instances.dynamic).isOk

/-- The frames of components, the open entries and the instances of a walk are in step: there
    are as many entries as frames, with the same names, and there are instances with which the
    components were entered, such that those of the innermost one are the active ones and every
    frame keeps those of the next one further out, if there is one. -/
structure InStep (engine : Engine) (walk : Walk) : Prop where
  count : walk.boundaries.length = walk.builder.entries.length
  names : ∀ (i : Nat) (boundary : Boundary) (entry : OpenEntry), walk.boundaries[i]? = some boundary →
    walk.builder.entries[i]? = some entry → entry.component = boundary.inst.component.name
  instances : ∃ instances : List (Twin Instance),
    List.Forall₂ (Boundary.EnteredWith engine) walk.boundaries instances ∧
    walk.active = instances[0]? ∧
    ∀ (i : Nat) (boundary : Boundary), walk.boundaries[i]? = some boundary →
      boundary.around = instances[i + 1]?

namespace Layered

variable {boundaries : List Boundary} {names : List String} {active : Option (Twin Instance)}

theorem names_eq (h : Layered engine boundaries names active) :
    names = boundaries.map (·.inst.component.name) := by
  induction h with
  | nil => rfl
  | cons pending rootSlot _ _ _ ih => exact congrArg _ ih

theorem instances (h : Layered engine boundaries names active) :
    ∃ instances : List (Twin Instance),
      List.Forall₂ (Boundary.EnteredWith engine) boundaries instances ∧ active = instances[0]? ∧
      ∀ (i : Nat) (boundary : Boundary), boundaries[i]? = some boundary →
        boundary.around = instances[i + 1]? := by
  induction h with
  | nil => exact ⟨[], .nil, rfl, fun i boundary hboundary => by cases hboundary⟩
  | cons pending rootSlot hstatic hdynamic _ ih =>
      obtain ⟨instances, hentered, hactive, haround⟩ := ih
      refine ⟨pending.instances :: instances, .cons ⟨rfl, hstatic, hdynamic⟩ hentered, rfl, ?_⟩
      intro i boundary hboundary
      cases i with
      | zero =>
          cases hboundary
          exact hactive
      | succ i => exact haround i boundary hboundary

end Layered

theorem Aligned.inStep (h : Aligned engine walk) : InStep engine walk where
  count := by
    have hlength := congrArg List.length h.layered.names_eq
    rw [Builder.names, List.length_map, List.length_map] at hlength
    exact hlength.symm
  names i boundary entry hboundary hentry := by
    have hname : walk.builder.names[i]? = some boundary.inst.component.name := by
      rw [h.layered.names_eq, List.getElem?_map, hboundary]
      rfl
    rw [Builder.names, List.getElem?_map, hentry] at hname
    exact Option.some.inj hname
  instances := h.layered.instances

theorem start_aligned (options : Options) (root : Twin View) (state : Engine.State) :
    Aligned engine (.start options root state) :=
  ⟨.nil, Synthesizer.new_sound _⟩

end Walk

end RenderFold
