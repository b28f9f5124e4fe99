import RenderFold.Proofs.Folding.Lined

/-!
# Components That Are Entered

Comparing a pair enters a component or leaves the components that a walk is
inside of as they are. A component is entered if both passes render it: it
gets a frame, an entry with its name and its styles, and its instances become
the innermost ones, all at once, and the frame keeps the instances around it.
If a comparison fails, nothing has been entered.

## Main definitions

* `Walk.Stays`, `Walk.Enters`: No component is entered, or one is.
* `Walk.Meets`, `Walk.Arrives`: What comparing two components and what
  comparing any pair leads to.

## Theorems

* `Walk.compare_arrives`, `Walk.resume_arrives`: Comparing a pair and going on
  after a pause enter one component at most.
-/

namespace RenderFold

/-- The static instance of a component that is about to be entered has the
    function that the component has on its own. -/
def Pending.Ready (pending : Pending) : Prop :=
  pending.instances.static.render = some pending.own

/-- The frame of a component when it is entered. -/
def Pending.boundary (pending : Pending) (rootSlot : Script.Id) (around : Option (Twin Instance)) :
    Boundary :=
  ⟨pending.slot, rootSlot, pending.instances.static, pending.own, around⟩

namespace Walk

/-- No frame and no entry is opened or closed. -/
structure Unmoved (walk after : Walk) : Prop where
  frames : after.frames = walk.frames
  builder : after.builder = walk.builder
  active : after.active = walk.active

/-- No component is entered. Frames are opened for other nodes only. -/
structure Stays (walk after : Walk) : Prop where
  frames : ∃ opened, opened.filterMap Frame.boundary? = [] ∧ after.frames = opened ++ walk.frames
  builder : after.builder = walk.builder
  active : after.active = walk.active

/-- A component is entered, after both passes have rendered it. -/
structure Enters (engine : Engine) (walk : Walk) (pending : Pending) (after : Walk) : Prop where
  frames : ∃ root rootSlot, engine.render pending.instances.static = .ok root.static ∧
    engine.render pending.instances.dynamic = .ok root.dynamic ∧
    after.frames = .component (pending.boundary rootSlot walk.active)
      (.ofList [⟨root, rootSlot, pending.context⟩]) :: walk.frames
  builder : after.builder = walk.builder.enter pending.instances.static.component.name
    pending.instances.static.component.styles
  active : after.active = some pending.instances

/-- What comparing two components leads to: it is entered, or else nothing changes, and it may
    have to be waited for. -/
inductive Meets (engine : Engine) (walk : Walk) : Option Suspension → Walk → Prop where
  | waits {out after} (h : Unmoved walk after)
      (hout : ∀ suspension, out = some suspension →
        ∃ pending, suspension = .component pending ∧ pending.Ready) :
      Meets engine walk out after
  | enters {pending after} (h : Enters engine walk pending after) (hready : pending.Ready) :
      Meets engine walk none after

/-- What comparing a pair leads to: a component is entered, or none is, and then one may have
    to be waited for. -/
inductive Arrives (engine : Engine) (walk : Walk) : Option Suspension → Walk → Prop where
  | stays {out after} (h : Stays walk after)
      (hout : ∀ pending, out = some (.component pending) → pending.Ready) :
      Arrives engine walk out after
  | enters {pending after} (h : Enters engine walk pending after) (hready : pending.Ready) :
      Arrives engine walk none after

variable {engine : Engine} {walk middle after : Walk} {pending : Pending} {pair : Pair}
  {out : Option Suspension}

theorem Stays.of_eq (hframes : after.frames = walk.frames) (hbuilder : after.builder = walk.builder)
    (hactive : after.active = walk.active) : Stays walk after :=
  ⟨⟨[], rfl, hframes⟩, hbuilder, hactive⟩

/-- A frame is opened for a node that is no component. -/
theorem Stays.push {frame : Frame} (hframe : frame.boundary? = none)
    (hframes : after.frames = frame :: walk.frames) (hbuilder : after.builder = walk.builder)
    (hactive : after.active = walk.active) : Stays walk after := by
  refine ⟨⟨[frame], ?_, hframes⟩, hbuilder, hactive⟩
  rw [List.filterMap_cons, hframe]
  rfl

theorem Unmoved.stays (h : Unmoved walk after) : Stays walk after :=
  .of_eq h.frames h.builder h.active

theorem Stays.arrives (h : Stays walk after) : Arrives engine walk none after :=
  .stays h fun _ hout => by cases hout

theorem Arrives.either (h : Arrives engine walk out after) :
    Stays walk after ∨ ∃ pending, Enters engine walk pending after := by
  cases h with
  | stays h _ => exact .inl h
  | enters h _ => exact .inr ⟨_, h⟩

theorem Stays.boundaries_eq (h : Stays walk after) : after.boundaries = walk.boundaries := by
  obtain ⟨opened, hbare, hframes⟩ := h.frames
  rw [boundaries, hframes, List.filterMap_append, hbare]
  rfl

theorem Enters.boundaries_eq (h : Enters engine walk pending after) : ∃ rootSlot,
    after.boundaries = pending.boundary rootSlot walk.active :: walk.boundaries := by
  obtain ⟨root, rootSlot, -, -, hframes⟩ := h.frames
  refine ⟨rootSlot, ?_⟩
  rw [boundaries, hframes]
  rfl

theorem Unmoved.since (h : Unmoved middle after) (hframes : middle.frames = walk.frames)
    (hbuilder : middle.builder = walk.builder) (hactive : middle.active = walk.active) :
    Unmoved walk after :=
  ⟨h.frames.trans hframes, h.builder.trans hbuilder, h.active.trans hactive⟩

theorem Stays.since (h : Stays middle after) (hframes : middle.frames = walk.frames)
    (hbuilder : middle.builder = walk.builder) (hactive : middle.active = walk.active) :
    Stays walk after :=
  ⟨hframes ▸ h.frames, h.builder.trans hbuilder, h.active.trans hactive⟩

theorem Enters.since (h : Enters engine middle pending after) (hframes : middle.frames = walk.frames)
    (hbuilder : middle.builder = walk.builder) (hactive : middle.active = walk.active) :
    Enters engine walk pending after :=
  ⟨hactive ▸ hframes ▸ h.frames, hbuilder ▸ h.builder, h.active⟩

theorem Arrives.since (h : Arrives engine middle out after) (hframes : middle.frames = walk.frames)
    (hbuilder : middle.builder = walk.builder) (hactive : middle.active = walk.active) :
    Arrives engine walk out after := by
  cases h with
  | stays h hout => exact .stays (h.since hframes hbuilder hactive) hout
  | enters h hready => exact .enters (h.since hframes hbuilder hactive) hready

/-- Taking a pair from a frame makes no difference. -/
theorem boundaries_withPairs {frame : Frame} {rest : List Frame}
    (hframes : walk.frames = frame :: rest) (left : Pairs) :
    boundaries { walk with frames := frame.withPairs left :: rest } = walk.boundaries := by
  rw [boundaries, boundaries, hframes, List.filterMap_cons, List.filterMap_cons,
    Frame.boundary?_withPairs]

/-- The innermost frame goes. -/
theorem boundaries_of_cons {frame : Frame} {rest : List Frame}
    (hframes : walk.frames = frame :: rest) :
    rest.filterMap Frame.boundary? ⊆ walk.boundaries := by
  rw [boundaries, hframes]
  exact ((List.sublist_cons_self frame rest).filterMap _).subset

section Compare

theorem descend_stays (slot : Script.Id) (closing : String) (children : Twin (List View)) :
    Leads (descend slot closing children) walk (fun _ => Stays walk) (Stays walk) := by
  unfold descend
  rw [leads_bind, leads_fromProgram, leads_bind, leads_get, leads_pushFrame]
  exact .push rfl rfl rfl rfl

theorem compareFragments_stays (slot : Script.Id) (opening closing : Twin String)
    (children : Twin (List View)) :
    Leads (compareFragments slot opening closing children) walk (fun _ => Stays walk)
      (Stays walk) := by
  unfold compareFragments
  split
  · dsimp only
    split
    · exact Stays.of_eq rfl rfl rfl
    · exact Stays.of_eq rfl rfl rfl
  · split
    · rw [leads_bind, leads_onProgram]
      exact leads_mono (descend_stays slot closing.static children)
        (fun _ _ h => h.since rfl rfl rfl) fun _ h => h.since rfl rfl rfl
    · exact Stays.of_eq rfl rfl rfl

theorem compareElements_stays (tag : String) (data : Twin NodeData)
    (children : Twin (List View)) :
    Leads (compareElements engine pair tag data children) walk (fun _ => Stays walk)
      (Stays walk) := by
  unfold compareElements
  dsimp only
  split
  · exact Stays.of_eq rfl rfl rfl
  · split
    · split
      · exact Stays.of_eq rfl rfl rfl
      · split
        · split
          · rw [leads_bind, leads_onProgram]
            exact leads_mono (descend_stays pair.slot _ children)
              (fun _ _ h => h.since rfl rfl rfl) fun _ h => h.since rfl rfl rfl
          · exact descend_stays pair.slot _ children
        · exact Stays.of_eq rfl rfl rfl
    · split
      · exact Stays.of_eq rfl rfl rfl
      · exact Stays.of_eq rfl rfl rfl
    · exact Stays.of_eq rfl rfl rfl

theorem enterComponent_enters (pending : Pending) :
    Leads (enterComponent engine pending) walk (fun _ => Enters engine walk pending)
      (Unmoved walk) := by
  unfold enterComponent
  -- Both passes render the component before anything changes.
  rw [leads_bind, leads_ofExcept]
  split
  · next static hstatic =>
      rw [leads_bind, leads_ofExcept]
      split
      · next dynamic hdynamic =>
          rw [leads_bind, leads_fromProgram, leads_bind, leads_get]
          dsimp only
          rw [leads_bind, leads_modify, leads_pushFrame]
          exact ⟨⟨⟨static, dynamic⟩, _, hstatic, hdynamic, rfl⟩, rfl, rfl⟩
      · exact ⟨rfl, rfl, rfl⟩
  · exact ⟨rfl, rfl, rfl⟩

/-- An instance that has been given its render function has it. -/
theorem ensureRender_render {inst after : Instance} {own : RenderFunction}
    {state state' : Engine.State}
    (h : engine.ensureRender inst state = .ok (own, after) state') : after.render = some own := by
  unfold Engine.ensureRender at h
  cases hrender : inst.render with
  | some function =>
      rw [hrender] at h
      cases h
      exact hrender
  | none =>
      rw [hrender] at h
      dsimp only at h
      split at h
      · cases h
      · simp only [bind, EStateM.bind] at h
        split at h
        · cases h
          rfl
        · cases h

theorem Meets.arrives (h : Meets engine walk out after) : Arrives engine walk out after := by
  cases h with
  | waits h hout =>
      refine .stays h.stays fun pending hpending => ?_
      obtain ⟨other, hother, hready⟩ := hout _ hpending
      cases hother
      exact hready
  | enters h hready => exact .enters h hready

theorem compareComponents_meets (component : Twin Component) (data : Twin NodeData) :
    Leads (compareComponents engine pair component data) walk (Meets engine walk)
      (Unmoved walk) := by
  unfold compareComponents
  split
  · exact Meets.waits ⟨rfl, rfl, rfl⟩ fun _ hout => by cases hout
  · rw [leads_bind, leads_get]
    dsimp only
    rw [leads_bind, leads_onEngine]
    split
    · next own state hown =>
        rw [leads_bind, leads_onEngine]
        split
        · next other state' hother =>
            rw [leads_bind, leads_fromProgram]
            dsimp only
            have hready : own.2.render = some own.1 := ensureRender_render hown
            split
            · refine .waits ⟨rfl, rfl, rfl⟩ fun suspension hout => ?_
              cases hout
              exact ⟨_, rfl, hready⟩
            · rw [leads_bind]
              refine leads_mono (enterComponent_enters _) (fun _ _ h => ?_) fun _ h =>
                h.since rfl rfl rfl
              exact .enters (h.since rfl rfl rfl) hready
        · exact ⟨rfl, rfl, rfl⟩
    · exact ⟨rfl, rfl, rfl⟩

theorem compareComponents_arrives (component : Twin Component) (data : Twin NodeData) :
    Leads (compareComponents engine pair component data) walk (Arrives engine walk)
      (Stays walk) :=
  leads_mono (compareComponents_meets component data) (fun _ _ h => h.arrives) fun _ h => h.stays

theorem compareResolved_arrives {compare : Pair → Walking (Option Suspension)}
    (hcompare : ∀ pair, Leads (compare pair) walk (Arrives engine walk) (Stays walk))
    (data : Twin NodeData) (resolutions : Twin Resolution) :
    Leads (compareResolved engine compare pair data resolutions) walk (Arrives engine walk)
      (Stays walk) := by
  unfold compareResolved
  split
  · exact compareComponents_arrives _ _
  · exact hcompare _
  · split
    · rw [leads_bind, leads_fromProgram, leads_bind, leads_pushFrame]
      exact Stays.arrives (.push rfl rfl rfl rfl)
    · exact Stays.arrives (.of_eq rfl rfl rfl)
  · exact Stays.arrives (.of_eq rfl rfl rfl)

/-- Comparing a pair enters one component at most. -/
theorem compare_arrives (depth : Nat) :
    ∀ (pair : Pair) (walk : Walk),
      Leads (compare engine depth pair) walk (Arrives engine walk) (Stays walk) := by
  -- By induction on the async components that are looked through.
  induction depth with
  | zero => exact fun _ _ => Stays.of_eq rfl rfl rfl
  | succ depth ih =>
      intro pair walk
      unfold compare
      split
      · exact Stays.arrives (.of_eq rfl rfl rfl)
      · rw [leads_bind, leads_get]
        split
        · exact Stays.arrives (.of_eq rfl rfl rfl)
        · exact Stays.arrives (.of_eq rfl rfl rfl)
      · rw [leads_bind]
        exact leads_mono (compareFragments_stays _ _ _ _) (fun _ _ h => h.arrives) fun _ h => h
      · split
        · rw [leads_bind]
          exact leads_mono (compareElements_stays _ _ _) (fun _ _ h => h.arrives) fun _ h => h
        · exact Stays.arrives (.of_eq rfl rfl rfl)
      · exact compareComponents_arrives _ _
      · rw [leads_bind, leads_onEngine]
        split
        · rw [leads_bind, leads_onEngine]
          split
          · dsimp only
            split
            · exact leads_mono (compareResolved_arrives (fun other => ih other _) _ _)
                (fun _ _ h => h.since rfl rfl rfl) fun _ h => h.since rfl rfl rfl
            · exact .stays (.of_eq rfl rfl rfl) fun _ hout => by cases hout
          · exact Stays.of_eq rfl rfl rfl
        · exact Stays.of_eq rfl rfl rfl
      · exact Stays.arrives (.of_eq rfl rfl rfl)

/-- Going on at a component enters it. -/
theorem resume_enters (pending : Pending) (resolved : Resolved) (walk : Walk) :
    Leads (resume engine (.component pending) resolved) walk
      (fun _ after => Enters engine walk pending after ∧ after.pause = .going)
      (fun after => Unmoved walk after ∧ (after.pause = .going ∨ after.pause = walk.pause)) := by
  unfold resume
  rw [leads_bind, leads_get]
  split
  · rw [leads_bind, leads_modify]
    cases resolved with
    | prefetched =>
        exact leads_mono ((enterComponent_steady pending).leads (enterComponent_enters pending))
          (fun _ _ h => ⟨h.1.since rfl rfl rfl, h.2⟩)
          fun _ h => ⟨h.1.since rfl rfl rfl, .inl h.2⟩
    | deferred resolutions => exact ⟨⟨rfl, rfl, rfl⟩, .inl rfl⟩
  · exact ⟨⟨rfl, rfl, rfl⟩, .inr rfl⟩

/-- Going on at async components compares what they resolved to. -/
theorem resume_deferred_arrives (pair : Pair) (data : Twin NodeData) (resolved : Resolved)
    (walk : Walk) :
    Leads (resume engine (.deferred pair data) resolved) walk
      (fun _ after => ∃ out, Arrives engine walk out after ∧
        ∀ suspension, after.pause = .parked suspension → out = some suspension)
      (fun after => Stays walk after ∧ (after.pause = .going ∨ after.pause = walk.pause)) := by
  unfold resume
  rw [leads_bind, leads_get]
  split
  · rw [leads_bind, leads_modify]
    cases resolved with
    | prefetched => exact ⟨Stays.of_eq rfl rfl rfl, .inl rfl⟩
    | deferred resolutions =>
        dsimp only
        rw [leads_bind]
        refine leads_mono ((compareResolved_steady (compare_steady maxChain) _ _ _).leads
          (compareResolved_arrives (fun other => compare_arrives maxChain other _) _ _))
          (fun out after h => ?_) fun _ h => ⟨h.1.since rfl rfl rfl, .inl h.2⟩
        have harrives : Arrives engine walk out after := h.1.since rfl rfl rfl
        cases out with
        | none =>
            refine ⟨none, harrives, fun suspension hparked => ?_⟩
            cases h.2.symm.trans hparked
        | some suspension =>
            -- The walk is parked until what has been found is waited for.
            refine ⟨some suspension, ?_, fun other hparked => ?_⟩
            · cases harrives with
              | stays hstays hout =>
                  exact .stays ⟨hstays.frames, hstays.builder, hstays.active⟩ hout
            · cases hparked
              rfl
  · exact ⟨Stays.of_eq rfl rfl rfl, .inr rfl⟩

/-- Going on after a pause enters one component at most. -/
theorem resume_arrives (continuation : Continuation) (resolved : Resolved) (walk : Walk) :
    Leads (resume engine continuation resolved) walk
      (fun _ after => Stays walk after ∨ ∃ pending, Enters engine walk pending after)
      (Stays walk) := by
  cases continuation with
  | component pending =>
      exact leads_mono (resume_enters pending resolved walk) (fun _ _ h => .inr ⟨pending, h.1⟩)
        fun _ h => h.1.stays
  | deferred pair data =>
      refine leads_mono (resume_deferred_arrives pair data resolved walk) (fun _ _ h => ?_)
        fun _ h => h.1
      obtain ⟨out, harrives, -⟩ := h
      exact harrives.either

end Compare

end Walk

end RenderFold
