import RenderFold.Proofs.Folding.InStep
import RenderFold.Proofs.Folding.Styles
import RenderFold.Proofs.Folding.Trampoline

/-!
# No Style Is Lost

A tree has the style ids of all the components that were entered on the way, and
no others, whatever became of their entries. An entry may be pruned with all
that is below it, and then its styles go to the entry above; or it may be kept,
even without a call that uses it, or under a component that kept its own
function.

The styles would be lost with a second root, which finds no place in the tree.
There is only one root if folding begins at a component: when it is left,
nothing is left to compare.

## Main definitions

* `Walk.WasInside`: A walk was inside of a component on its way.
* `Walk.Lone`: Folding begins at one component.

## Theorems

* `Walk.Reaches.lone`: There is only one root.
* `Engine.foldComponent_styles`: The style ids of a tree.
-/

namespace RenderFold

namespace Builder

variable {builder : Builder} {slot : Script.Id} {function : RenderFunction} {isStatic : Bool}
  {stays : Script.Id → Bool}

/-- Only the outermost entry becomes the root. -/
theorem root_close (h : 2 ≤ builder.entries.length) :
    (builder.close slot function isStatic stays).root = builder.root := by
  obtain ⟨_ | ⟨entry, _ | ⟨parent, rest⟩⟩, root⟩ := builder
  · cases h
  · exact absurd h (by simp)
  · rfl

end Builder

namespace Walk

/-- A walk was inside of a component on the way from `start` to `last`, where the suspension
    `out` is handed out. -/
def WasInside (engine : Engine) (start : Walk) (out : Option Suspension) (last : Walk)
    (boundary : Boundary) : Prop :=
  ∃ events later out' moment, Reaches engine start events out' moment ∧
    boundary ∈ moment.boundaries ∧ Reaches engine moment later out last

/-- A walk that folds one component, with the suspension that is handed out. It has yet to enter
    the component, which may have to be waited for; or it is inside; or it has left the
    component, and then nothing is left to compare. -/
inductive Lone (walk : Walk) : Option Suspension → Prop where
  | before {slot pairs pair component} {data : Twin NodeData}
      (hframes : walk.frames = [.group slot pairs]) (hleft : pairs.left = [pair])
      (hview : pair.view = ⟨.component component data.static, .component component data.dynamic⟩)
      (hroot : walk.builder.root = none) (hpause : walk.pause = .going) : Lone walk none
  | entering {out slot pairs} (hframes : walk.frames = [.group slot pairs])
      (hleft : pairs.left = []) (hroot : walk.builder.root = none)
      (hout : ∀ suspension, out = some suspension → ∃ pending, suspension = .component pending)
      (hpause : ∀ suspension, walk.pause ≠ .parked suspension) : Lone walk out
  | inside {out inner boundary inside slot pairs}
      (hframes : walk.frames = inner ++ [.component boundary inside, .group slot pairs])
      (hleft : pairs.left = []) (hroot : walk.builder.root = none) : Lone walk out
  | behind (hframes : ∀ frame ∈ walk.frames, frame.boundary? = none ∧ frame.pairs.left = [])
      (hpause : walk.pause = .going) : Lone walk none

variable {engine : Engine} {start walk after last : Walk} {events later : List Event}
  {out out' : Option Suspension} {pending : Pending} {frame : Frame} {rest : List Frame}
  {pair : Pair} {left : Pairs} {outcome : Option (Option Suspension)}

section One

/-- Whatever is opened inside of the component is inside of it. -/
theorem inside_of_opened {inner : List Frame} {boundary : Boundary} {inside pairs : Pairs}
    {slot : Script.Id} (h : Stays walk after ∨ ∃ pending, Enters engine walk pending after)
    (hframes : walk.frames = inner ++ [.component boundary inside, .group slot pairs]) :
    after.builder.root = walk.builder.root ∧ ∃ inner',
      after.frames = inner' ++ [.component boundary inside, .group slot pairs] := by
  rcases h with h | ⟨pending, h⟩
  · obtain ⟨opened, -, hafter⟩ := h.frames
    rw [hframes, ← List.append_assoc] at hafter
    exact ⟨congrArg Builder.root h.builder, _, hafter⟩
  · obtain ⟨root, rootSlot, -, -, hafter⟩ := h.frames
    rw [hframes, ← List.cons_append] at hafter
    refine ⟨?_, _, hafter⟩
    rw [h.builder]
    rfl

/-- The next pair is taken from a frame inside of the component. -/
theorem inside_of_next {inner : List Frame} {boundary : Boundary} {inside pairs : Pairs}
    {slot : Script.Id} (hframes : frame :: rest = inner ++ [.component boundary inside,
      .group slot pairs]) : ∃ inner' inside', frame.withPairs left :: rest =
        inner' ++ [.component boundary inside', .group slot pairs] := by
  cases inner with
  | nil =>
      obtain ⟨rfl, rfl⟩ := List.cons.inj hframes
      exact ⟨[], left, rfl⟩
  | cons first inner =>
      obtain ⟨rfl, rfl⟩ := List.cons.inj hframes
      exact ⟨frame.withPairs left :: inner, inside, rfl⟩

/-- Two uses of one component are compared as such. -/
theorem compare_meets {id : ComponentId} {data : Twin NodeData}
    (hview : pair.view = ⟨.component id data.static, .component id data.dynamic⟩) (depth : Nat) :
    Leads (compare engine depth pair) walk (Meets engine walk) (Unmoved walk) := by
  cases depth with
  | zero => exact ⟨rfl, rfl, rfl⟩
  | succ depth =>
      unfold compare
      rw [hview]
      exact compareComponents_meets _ _

/-- A pair is compared. -/
theorem Lone.compared (h : Lone walk none) (hpause : walk.pause = .going)
    (hframes : walk.frames = frame :: rest) (hnext : frame.pairs.next? = some (pair, left))
    (hleaves : Leaves (compare engine maxChain pair
      { walk with frames := frame.withPairs left :: rest }) outcome after) :
    Lone (after.handingOut outcome.join) outcome.join := by
  obtain ⟨htaken, -⟩ := Frame.next?_eq_some hnext
  cases h with
  | @before slot pairs pair' component data hbefore hleft hview hroot _ =>
      -- The pair is the component. It is entered, or it has to be waited for, or it is passed over.
      obtain ⟨rfl, rfl⟩ := List.cons.inj (hframes.symm.trans hbefore)
      obtain ⟨rfl, hempty⟩ := List.cons.inj (htaken.symm.trans hleft)
      have hmeets := (compare_steady maxChain pair).leads
        (@compare_meets engine { walk with frames := [.group slot left] } pair _ _ hview maxChain)
      cases hleaves with
      | @ok found _ hwork =>
          obtain ⟨hmeets, hsteady⟩ := leads_ok hmeets hwork
          have hgoing := hsteady.trans hpause
          cases hmeets with
          | waits hsame hout =>
              refine .entering (by cases found <;> exact hsame.frames) hempty
                (by cases found <;> exact (congrArg Builder.root hsame.builder).trans hroot)
                (fun suspension hfound => ?_) fun suspension hparked => ?_
              · obtain ⟨pending, hpending, -⟩ := hout suspension (by cases found <;> exact hfound)
                exact ⟨pending, hpending⟩
              · cases found with
                | none => cases hgoing.symm.trans hparked
                | some _ => cases hparked
          | enters henters _ =>
              obtain ⟨root, rootSlot, -, -, hafter⟩ := henters.frames
              exact @Lone.inside after none [] _ _ _ _ hafter hempty
                ((congrArg Builder.root henters.builder).trans hroot)
      | error hwork =>
          obtain ⟨hsame, hsteady⟩ := leads_error hmeets hwork
          refine .entering hsame.frames hempty ((congrArg Builder.root hsame.builder).trans hroot)
            (fun _ hout => by cases hout) fun suspension hparked => ?_
          cases (hsteady.trans hpause).symm.trans hparked
  | entering hentering hleft _ _ _ =>
      obtain ⟨rfl, rfl⟩ := List.cons.inj (hframes.symm.trans hentering)
      cases htaken.symm.trans hleft
  | inside hinside hleft hroot =>
      obtain ⟨inner, inside, htaken⟩ := @inside_of_next _ _ left _ _ _ _ _ (hframes.symm.trans hinside)
      have harrives := @compare_arrives engine maxChain pair
        { walk with frames := frame.withPairs left :: rest }
      cases hleaves with
      | @ok found _ hwork =>
          obtain ⟨hsame, inner', hafter⟩ := inside_of_opened (leads_ok harrives hwork).either htaken
          cases found with
          | none => exact .inside hafter hleft (hsame.trans hroot)
          | some suspension => exact .inside hafter hleft (hsame.trans hroot)
      | error hwork =>
          obtain ⟨hsame, inner', hafter⟩ :=
            @inside_of_opened engine _ _ _ _ _ _ _ (.inl (leads_error harrives hwork)) htaken
          exact .inside hafter hleft (hsame.trans hroot)
  | behind hover _ =>
      have hempty := (hover frame (hframes ▸ List.mem_cons_self)).2
      cases htaken.symm.trans hempty

/-- Only the frame of the outermost component makes its entry the root when it is closed. -/
theorem finish_root (h : frame.boundary? = none ∨ 2 ≤ walk.builder.entries.length) :
    Leads (finish engine frame) walk
      (fun _ after => after.builder.root = walk.builder.root) fun _ => True := by
  cases frame with
  | element slot closing pairs => rfl
  | group slot pairs => rfl
  | component boundary pairs =>
      have hmany := h.resolve_left (Option.some_ne_none boundary)
      refine leads_mono (leaveComponent_closes boundary walk) (fun _ after hafter => ?_)
        fun _ _ => trivial
      obtain ⟨-, function, isStatic, stays, hbuilder⟩ := hafter
      rw [hbuilder, Builder.root_close hmany]

/-- A component further in is not the outermost one, so there are two entries at least. -/
theorem Aligned.further_in {inner : List Frame} {boundary : Boundary} {inside pairs : Pairs}
    {slot : Script.Id} (h : Aligned engine walk)
    (hframes : walk.frames = frame :: inner ++ [.component boundary inside, .group slot pairs]) :
    frame.boundary? = none ∨ 2 ≤ walk.builder.entries.length := by
  cases hboundary : frame.boundary? with
  | none => exact .inl rfl
  | some own =>
      refine .inr ?_
      have houter : ([.component boundary inside, .group slot pairs] : List Frame).filterMap
        Frame.boundary? = [boundary] := rfl
      rw [← h.inStep.count, boundaries, hframes, List.filterMap_append, houter,
        List.filterMap_cons_some hboundary, List.length_append, List.length_cons,
        List.length_singleton]
      omega

/-- A frame is closed. -/
theorem Lone.finished (h : Lone walk none) (haligned : Aligned engine walk)
    (hpause : walk.pause = .going) (hframes : walk.frames = frame :: rest)
    (hnext : frame.pairs.next? = none) :
    Leads (finish engine frame) { walk with frames := rest } (fun _ after => Lone after none)
      fun _ => False := by
  have hempty := left_of_next?_eq_none hnext
  have hcloses := @finish_closes engine { walk with frames := rest } haligned.synthesizer frame
  refine leads_of_eq (fun _ after hwork => ?_) fun _ _ hwork => leads_error hcloses hwork
  have hafter : after.frames = rest := (leads_ok hcloses hwork).frames
  have hgoing : after.pause = .going := (leads_ok (finish_steady frame _) hwork).1.trans hpause
  cases h with
  | before hbefore hleft _ _ _ =>
      obtain ⟨rfl, rfl⟩ := List.cons.inj (hframes.symm.trans hbefore)
      cases hempty.symm.trans hleft
  | entering hentering _ _ _ _ =>
      obtain ⟨rfl, rfl⟩ := List.cons.inj (hframes.symm.trans hentering)
      exact .behind (by rw [hafter]; exact List.forall_mem_nil _) hgoing
  | @inside _ inner boundary inside slot pairs hinside hleft hroot =>
      obtain _ | ⟨first, inner⟩ := inner
      · -- The component itself is left. Around it, nothing is left.
        obtain ⟨rfl, rfl⟩ := List.cons.inj (hframes.symm.trans hinside)
        exact .behind (by rw [hafter]; exact List.forall_mem_singleton.mpr ⟨rfl, hleft⟩) hgoing
      · -- A frame further in is closed, which does not make its entry the root.
        obtain ⟨rfl, rfl⟩ := List.cons.inj (hframes.symm.trans hinside)
        have hmany := haligned.further_in hinside
        have hsame : after.builder.root = walk.builder.root :=
          leads_ok (@finish_root engine
            { walk with frames := inner ++ [.component boundary inside, .group slot pairs] }
            frame hmany) hwork
        exact .inside hafter hleft (hsame.trans hroot)
  | behind hover _ =>
      refine .behind (fun other hother => hover other ?_) hgoing
      rw [hframes]
      exact List.mem_cons_of_mem _ (hafter ▸ hother)

/-- Awaiting what a component waits for leads back to it. -/
theorem await_component {resolved : Except RenderError Resolved} {continuation : Continuation}
    {state next : Engine.State}
    (h : (Suspension.component pending).await engine state = (resolved, continuation, next)) :
    ∃ pending, continuation = .component pending := by
  cases h
  exact ⟨_, rfl⟩

/-- A walk goes on, at the component itself or somewhere inside. -/
theorem Lone.resumed {suspension : Suspension} {resolved : Resolved} {continuation : Continuation}
    {state : Engine.State} {outcome : Option Unit} (h : Lone walk (some suspension))
    (hawait : suspension.await engine walk.engine = (.ok resolved, continuation, state))
    (hleaves : Leaves (resume engine continuation resolved { walk with engine := state })
      outcome after) : Lone after none := by
  cases h with
  | @entering _ slot pairs hframes hleft hroot hout hpause =>
      obtain ⟨pending, rfl⟩ := hout suspension rfl
      obtain ⟨pending, rfl⟩ := await_component hawait
      have hleads := @resume_enters engine pending resolved { walk with engine := state }
      cases hleaves with
      | ok hwork =>
          obtain ⟨henters, -⟩ := leads_ok hleads hwork
          obtain ⟨root, rootSlot, -, -, hafter⟩ := henters.frames
          have hframes := hafter.trans (congrArg (_ :: ·) hframes)
          refine @Lone.inside after none [] _ _ slot pairs hframes hleft ?_
          rw [henters.builder]
          exact hroot
      | error hwork =>
          obtain ⟨hsame, hgoing⟩ := leads_error hleads hwork
          refine .entering (hsame.frames.trans hframes) hleft
            ((congrArg Builder.root hsame.builder).trans hroot) (fun _ hout => by cases hout)
            fun parked hparked => ?_
          rcases hgoing with hgoing | hgoing
          · cases hgoing.symm.trans hparked
          · exact hpause parked (hgoing.symm.trans hparked)
  | inside hframes hleft hroot =>
      have hleads := @resume_arrives engine continuation resolved { walk with engine := state }
      have hopened : Stays { walk with engine := state } after ∨
          ∃ pending, Enters engine { walk with engine := state } pending after := by
        cases hleaves with
        | ok hwork => exact leads_ok hleads hwork
        | error hwork => exact .inl (leads_error hleads hwork)
      obtain ⟨hsame, inner, hafter⟩ := inside_of_opened hopened hframes
      exact .inside hafter hleft (hsame.trans hroot)

/-- A walk that begins at one component has no other root, in every state that it can be in. -/
theorem Reaches.lone (h : Reaches engine start events out walk) (haligned : Aligned engine start)
    (hstart : Lone start none) : Lone walk out := by
  -- By induction on the moves.
  induction h with
  | start => exact hstart
  | compare h hpause hframes hnext hleaves ih => exact ih.compared hpause hframes hnext hleaves
  | finish h hpause hframes hnext hleaves ih =>
      have hleads := ih.finished (h.invariant (aligned_invariant engine) haligned) hpause hframes
        hnext
      cases hleaves with
      | ok hwork => exact leads_ok hleads hwork
      | error hwork => exact (leads_error hleads hwork).elim
  | handOut h hpause ih =>
      cases ih with
      | before _ _ _ _ hgoing => cases hgoing.symm.trans hpause
      | entering _ _ _ _ hparked => exact absurd hpause (hparked _)
      | inside hframes hleft hroot => exact .inside hframes hleft hroot
      | behind _ hgoing => cases hgoing.symm.trans hpause
  | resume h hawait hleaves ih => exact ih.resumed hawait hleaves
  | fail h hawait ih =>
      cases ih with
      | entering hframes hleft hroot _ hpause =>
          exact .entering hframes hleft hroot (fun _ hout => by cases hout) hpause
      | inside hframes hleft hroot => exact .inside hframes hleft hroot

theorem Lone.settled (h : Lone walk out) : Lone walk none := by
  cases h with
  | before hframes hleft hview hroot hpause => exact .before hframes hleft hview hroot hpause
  | entering hframes hleft hroot _ hpause =>
      exact .entering hframes hleft hroot (fun _ hout => by cases hout) hpause
  | inside hframes hleft hroot => exact .inside hframes hleft hroot
  | behind hframes hpause => exact .behind hframes hpause

/-- Before a component is left, there is no root. -/
theorem Lone.no_root {boundary : Boundary} {pairs : Pairs} (h : Lone walk out)
    (hframes : walk.frames = .component boundary pairs :: rest) : walk.builder.root = none := by
  cases h with
  | before _ _ _ hroot _ => exact hroot
  | entering _ _ hroot _ _ => exact hroot
  | inside _ _ hroot => exact hroot
  | behind hover _ =>
      have hbare := (hover (.component boundary pairs) (hframes ▸ List.mem_cons_self)).1
      cases hbare

end One

section Gather

/-- What a move does to the styles that entries have. No id is lost, and there are no new styles
    but those of a component that is entered, and then nothing has to be waited for. -/
structure Gathers (walk : Walk) (out : Option Suspension) (after : Walk) : Prop where
  keeps : ∀ name css, walk.builder.Brings (name, css) → ∃ css, after.builder.Brings (name, css)
  opens : ∀ boundary ∈ after.boundaries, boundary ∈ walk.boundaries ∨
    ∀ style ∈ boundary.inst.component.styles, after.builder.Brings style
  adds : ∀ style, after.builder.Brings style → walk.builder.Brings style ∨
    out = none ∧ ∃ boundary ∈ after.boundaries, style ∈ boundary.inst.component.styles

theorem Gathers.of_eq (hbuilder : after.builder = walk.builder)
    (hboundaries : after.boundaries ⊆ walk.boundaries) : Gathers walk out after where
  keeps _ css h := ⟨css, hbuilder ▸ h⟩
  opens _ hboundary := .inl (hboundaries hboundary)
  adds _ h := .inl (hbuilder ▸ h)

theorem Gathers.since {middle : Walk} (h : Gathers middle out after)
    (hbuilder : middle.builder = walk.builder) (hboundaries : middle.boundaries = walk.boundaries) :
    Gathers walk out after :=
  ⟨hbuilder ▸ h.keeps, hboundaries ▸ h.opens, hbuilder ▸ h.adds⟩

theorem Gathers.pausing (h : Gathers walk out after) : Gathers walk out (after.handingOut out) := by
  cases out with
  | none => exact h
  | some suspension => exact ⟨h.keeps, h.opens, h.adds⟩

theorem Stays.gathers (h : Stays walk after) : Gathers walk out after :=
  .of_eq h.builder fun _ hboundary => h.boundaries_eq ▸ hboundary

theorem Enters.gathers (h : Enters engine walk pending after) : Gathers walk none after := by
  obtain ⟨rootSlot, hboundaries⟩ := h.boundaries_eq
  refine ⟨fun name css hbrings => ⟨css, ?_⟩, fun boundary hboundary => ?_, fun style hstyle => ?_⟩
  · rw [h.builder, Builder.brings_enter]
    exact .inr hbrings
  · rw [hboundaries] at hboundary
    rcases List.mem_cons.mp hboundary with rfl | hboundary
    · refine .inr fun style hstyle => ?_
      rw [h.builder, Builder.brings_enter]
      exact .inl hstyle
    · exact .inl hboundary
  · rw [h.builder, Builder.brings_enter] at hstyle
    rcases hstyle with hown | hbrings
    · exact .inr ⟨rfl, _, hboundaries ▸ List.mem_cons_self, hown⟩
    · exact .inl hbrings

theorem Arrives.gathers (h : Arrives engine walk out after) : Gathers walk out after := by
  cases h with
  | stays h _ => exact h.gathers
  | enters h _ => exact h.gathers

/-- Closing an entry gathers the styles of the entries that leave. -/
theorem finish_gathers (hsound : walk.synthesizer.Sound)
    (hroot : frame.boundary? = none ∨ walk.builder.root = none)
    (hframes : walk.frames = frame :: rest) :
    Leads (finish engine frame) { walk with frames := rest } (fun _ after => Gathers walk out after)
      fun _ => False := by
  have hcloses := @finish_closes engine { walk with frames := rest } hsound frame
  cases frame with
  | element slot closing pairs => exact .of_eq rfl (boundaries_of_cons hframes)
  | group slot pairs => exact .of_eq rfl (boundaries_of_cons hframes)
  | component boundary pairs =>
      have hplace : walk.builder.entries.tail ≠ [] ∨ walk.builder.root = none :=
        .inr (hroot.resolve_left (Option.some_ne_none boundary))
      refine leads_of_eq (fun _ after hwork => ?_) fun _ _ hwork => leads_error hcloses hwork
      obtain ⟨hrest, function, isStatic, stays, hbuilder⟩ :=
        leads_ok (leaveComponent_closes boundary _) hwork
      refine ⟨fun name css hbrings => ?_, fun other hother => .inl ?_, fun style hstyle => .inl ?_⟩
      · rw [hbuilder]
        exact Builder.brings_close hplace hbrings
      · rw [boundaries, hrest] at hother
        exact boundaries_of_cons hframes hother
      · rw [hbuilder] at hstyle
        exact Builder.brings_of_close hplace hstyle

/-- What has been gathered on the way from one walk to another. -/
structure Gathered (engine : Engine) (start : Walk) (out : Option Suspension) (walk : Walk) :
    Prop where
  keeps : ∀ name css, start.builder.Brings (name, css) → ∃ css, walk.builder.Brings (name, css)
  opens : ∀ boundary ∈ walk.boundaries, boundary ∈ start.boundaries ∨
    ∀ style ∈ boundary.inst.component.styles, ∃ css, walk.builder.Brings (style.1, css)
  adds : ∀ style, walk.builder.Brings style → start.builder.Brings style ∨
    ∃ boundary, WasInside engine start out walk boundary ∧ style ∈ boundary.inst.component.styles

/-- One more move is made. -/
theorem Gathered.move (h : Gathered engine start out walk) (hgathers : Gathers walk out' after)
    (hreaches : Reaches engine start events out walk)
    (hmove : ∀ {origin : Walk} {events : List Event}, Reaches engine origin events out walk →
      ∃ events, Reaches engine origin events out' after) : Gathered engine start out' after where
  keeps name css hbrings := by
    obtain ⟨css, hwalk⟩ := h.keeps name css hbrings
    exact hgathers.keeps name css hwalk
  opens boundary hboundary := by
    rcases hgathers.opens boundary hboundary with hwalk | hnew
    · refine (h.opens boundary hwalk).imp_right fun hstyles style hstyle => ?_
      obtain ⟨css, hbrings⟩ := hstyles style hstyle
      exact hgathers.keeps _ css hbrings
    · exact .inr fun style hstyle => ⟨style.2, hnew style hstyle⟩
  adds style hstyle := by
    rcases hgathers.adds style hstyle with hwalk | ⟨rfl, boundary, hboundary, hown⟩
    · rcases h.adds style hwalk with hstart | ⟨boundary, hinside, hown⟩
      · exact .inl hstart
      · obtain ⟨events, later, between, moment, hmoment, hinside, hlater⟩ := hinside
        obtain ⟨later, hlater⟩ := hmove hlater
        exact .inr ⟨boundary, ⟨events, later, between, moment, hmoment, hinside, hlater⟩, hown⟩
    · -- A component that was just entered is passed at this very moment.
      obtain ⟨events, hafter⟩ := hmove hreaches
      exact .inr ⟨boundary, ⟨events, [], none, after, hafter, hboundary, .start⟩, hown⟩

theorem Reaches.gathered (h : Reaches engine start events out walk)
    (haligned : Aligned engine start) (hstart : Lone start none) :
    Gathered engine start out walk := by
  -- By induction on the moves. Each gathers the styles of at most one component.
  induction h with
  | start =>
      exact ⟨fun name css hbrings => ⟨css, hbrings⟩, fun boundary hboundary => .inl hboundary,
        fun style hstyle => .inl hstyle⟩
  | @compare events walk frame rest pair left outcome after h hpause hframes hnext hleaves ih =>
      refine ih.move ?_ h fun horigin => ⟨_, .compare horigin hpause hframes hnext hleaves⟩
      have hboundaries := boundaries_withPairs hframes left
      have harrives := @compare_arrives engine maxChain pair
        { walk with frames := frame.withPairs left :: rest }
      cases hleaves with
      | @ok found _ hwork =>
          have hgathers : Gathers walk found after :=
            (leads_ok harrives hwork).gathers.since rfl hboundaries
          exact hgathers.pausing
      | error hwork => exact (leads_error harrives hwork).gathers.since rfl hboundaries
  | @finish events walk frame rest outcome after h hpause hframes hnext hleaves ih =>
      refine ih.move ?_ h fun horigin => ⟨_, .finish horigin hpause hframes hnext hleaves⟩
      have hroot : frame.boundary? = none ∨ walk.builder.root = none := by
        cases frame with
        | element slot closing pairs => exact .inl rfl
        | group slot pairs => exact .inl rfl
        | component boundary pairs => exact .inr ((h.lone haligned hstart).no_root hframes)
      have hsound := (h.invariant (aligned_invariant engine) haligned).synthesizer
      have hgathers := @finish_gathers engine walk none frame rest hsound hroot hframes
      cases hleaves with
      | ok hwork =>
          have hafter := leads_ok hgathers hwork
          exact hafter
      | error hwork => exact (leads_error hgathers hwork).elim
  | handOut h hpause ih =>
      exact ih.move (.of_eq rfl fun _ => id) h fun horigin => ⟨_, .handOut horigin hpause⟩
  | @resume events walk suspension resolved continuation state outcome after h hawait hleaves ih =>
      refine ih.move ?_ h fun horigin => ⟨_, .resume horigin hawait hleaves⟩
      have harrives := @resume_arrives engine continuation resolved { walk with engine := state }
      cases hleaves with
      | ok hwork =>
          rcases leads_ok harrives hwork with hstays | ⟨pending, henters⟩
          · exact hstays.gathers.since rfl rfl
          · exact henters.gathers.since rfl rfl
      | error hwork => exact (leads_error harrives hwork).gathers.since rfl rfl
  | fail h hawait ih =>
      exact ih.move (.of_eq rfl fun _ => id) h fun horigin => ⟨_, .fail horigin hawait⟩

end Gather

section Result

variable {options : Options} {state : Engine.State} {tree : FoldedTree} {id : ComponentId}
  {props : Value}

theorem start_lone (data : Twin NodeData) :
    Lone (.start options ⟨.component id data.static, .component id data.dynamic⟩ state) none :=
  .before rfl rfl rfl rfl rfl

/-- When a walk is over, all entries are in its tree. -/
theorem brings_of_result {style : String × String} (h : Aligned engine last)
    (hresult : last.result = .ok tree) : last.builder.Brings style ↔ tree.Brings style := by
  unfold result at hresult
  split at hresult
  · next hpause hframes =>
      have hentries : last.builder.entries = [] := by
        have hcount := h.inStep.count
        rw [boundaries, hframes] at hcount
        exact List.length_eq_zero_iff.mp hcount.symm
      split at hresult
      · next hroot =>
          cases hresult
          simp [Builder.Brings, Builder.trees, hentries, hroot]
      · cases hresult
  · cases hresult

/-- A style that is there at the end is that of a component that the walk was inside of. -/
theorem Reaches.inside_of_brings {style : String × String}
    (h : Reaches engine start events out last) (haligned : Aligned engine start)
    (hstart : Lone start none) (hbuilder : start.builder = .empty)
    (hbrings : last.builder.Brings style) :
    ∃ boundary, WasInside engine start out last boundary ∧
      style ∈ boundary.inst.component.styles := by
  refine ((h.gathered haligned hstart).adds style hbrings).resolve_left fun hnew => ?_
  rw [hbuilder] at hnew
  rcases hnew with ⟨entry, hentry, -⟩ | ⟨tree, htree, -⟩
  · exact absurd hentry List.not_mem_nil
  · exact absurd htree List.not_mem_nil

/-- The styles of a component were there at the moment at which the walk was inside of it, and
    none of their ids has been lost since. -/
theorem WasInside.brings {boundary : Boundary} {style : String × String}
    (h : WasInside engine start out last boundary) (haligned : Aligned engine start)
    (hstart : Lone start none) (hframes : start.boundaries = [])
    (hstyle : style ∈ boundary.inst.component.styles) :
    ∃ css, last.builder.Brings (style.1, css) := by
  obtain ⟨events, later, between, moment, hmoment, hinside, hlater⟩ := h
  have hopened := (hmoment.gathered haligned hstart).opens boundary hinside
  obtain ⟨css, hbrings⟩ := hopened.resolve_left
    (fun hnew => List.not_mem_nil (hframes ▸ hnew)) style hstyle
  have hmiddle := hmoment.invariant (aligned_invariant engine) haligned
  have hgathered := hlater.gathered hmiddle (hmoment.lone haligned hstart).settled
  exact hgathered.keeps style.1 css hbrings

/-- The style ids of the tree that a run gives are those of the components that it was inside
    of. -/
theorem Reaches.mem_keys_styles {data : Twin NodeData}
    (h : Reaches engine (.start options ⟨.component id data.static, .component id data.dynamic⟩ state)
      events none last) (hresult : last.result = .ok tree) (name : String) :
    name ∈ Fields.keys tree.allStyles ↔
      ∃ boundary, WasInside engine
        (.start options ⟨.component id data.static, .component id data.dynamic⟩ state) none last
          boundary ∧ name ∈ Fields.keys boundary.inst.component.styles := by
  have haligned : Aligned engine
      (.start options ⟨.component id data.static, .component id data.dynamic⟩ state) :=
    start_aligned _ _ _
  have hlast := h.invariant (aligned_invariant engine) haligned
  rw [FoldedTree.mem_keys_allStyles]
  constructor
  · rintro ⟨css, hbrings⟩
    obtain ⟨boundary, hinside, hown⟩ := h.inside_of_brings haligned (start_lone data) rfl
      ((brings_of_result hlast hresult).mpr hbrings)
    exact ⟨boundary, hinside, Fields.mem_keys_iff.mpr ⟨css, hown⟩⟩
  · rintro ⟨boundary, hinside, hname⟩
    obtain ⟨css, hown⟩ := Fields.mem_keys_iff.mp hname
    obtain ⟨css', hbrings⟩ := hinside.brings haligned (start_lone data) rfl hown
    exact ⟨css', (brings_of_result hlast hresult).mp hbrings⟩

end Result

end Walk

namespace Engine

variable {engine : Engine} {options : Options} {id : ComponentId} {props : Value}
  {state after : Engine.State} {tree : FoldedTree}

/-- A tree comes from a run. -/
theorem fold_run {root : Twin View} (h : engine.fold options root state = (.ok tree, after)) :
    ∃ last, Walk.run engine (.start options root state) = .ok tree last ∧ last.engine = after := by
  unfold fold at h
  split at h
  · next last hrun =>
      cases h
      exact ⟨last, hrun, rfl⟩
  · cases h

/-- Whatever the options are, no style is lost, and none is made up. -/
theorem foldComponent_styles
    (h : engine.foldComponent options id props state = (.ok tree, after)) :
    ∃ last,
      Walk.run engine (.start options ⟨.component id .empty, .component id (.withProps props)⟩ state) =
        .ok tree last ∧
      ∀ name, name ∈ Fields.keys tree.allStyles ↔ ∃ boundary,
        Walk.WasInside engine
          (.start options ⟨.component id .empty, .component id (.withProps props)⟩ state) none last
          boundary ∧
        name ∈ Fields.keys boundary.inst.component.styles := by
  obtain ⟨last, hrun, -⟩ := fold_run h
  obtain ⟨hresult, events, hreaches⟩ := Walk.leads_ok (Walk.run_reaches _) hrun
  exact ⟨last, hrun, fun name =>
    @Walk.Reaches.mem_keys_styles engine _ _ _ _ _ _ ⟨.empty, .withProps props⟩ hreaches hresult
      name⟩

/-- A page that has a style and uses a logo that has one, and that is static. -/
def styled (page logo : Styles) : Engine :=
  { Walk.engineOf (Component.named "logo") with
    components := fun id =>
      if id = 0 then
        { Component.named "page" with
          components := [("logo", .component 1)]
          styles := page
          render := (RenderFunction.compile
            "return _c(\"header\", [_c(\"logo\"), _c(\"span\", [_v(name)])])").toOption }
      else
        { Component.named "logo" with
          styles := logo
          render := (RenderFunction.compile "return _c(\"img\")").toOption } }

/-- The logo leaves the tree, and its style goes to the page. -/
theorem foldComponent_styles_logo : ∃ tree after last,
    (styled [("page", "a")] [("logo", "b")]).foldComponent .standard 0
      (.object [("name", .str "ada")]) (styled [("page", "a")] [("logo", "b")]).initial =
        (.ok tree, after) ∧
    tree.count = 1 ∧ Fields.keys tree.allStyles = ["page", "logo"] ∧
    ∀ name, name ∈ Fields.keys tree.allStyles ↔ ∃ boundary,
      Walk.WasInside (styled [("page", "a")] [("logo", "b")])
        (.start .standard ⟨.component 0 .empty, .component 0 (.withProps (.object [("name", .str "ada")]))⟩
          (styled [("page", "a")] [("logo", "b")]).initial) none last boundary ∧
      name ∈ Fields.keys boundary.inst.component.styles := by
  have hfold : ((styled [("page", "a")] [("logo", "b")]).foldComponent .standard 0
      (.object [("name", .str "ada")]) (styled [("page", "a")] [("logo", "b")]).initial).1.toOption.map
        (fun tree => (tree.count, Fields.keys tree.allStyles)) = some (1, ["page", "logo"]) := by
    decide +kernel
  rcases hresult : (styled [("page", "a")] [("logo", "b")]).foldComponent .standard 0
      (.object [("name", .str "ada")]) (styled [("page", "a")] [("logo", "b")]).initial with
    ⟨_ | tree, after⟩
  · rw [hresult] at hfold
    cases hfold
  · rw [hresult] at hfold
    obtain ⟨hcount, hkeys⟩ := Prod.mk.inj (Option.some.inj hfold)
    obtain ⟨last, -, hstyles⟩ := foldComponent_styles hresult
    exact ⟨tree, after, last, rfl, hcount, hkeys, hstyles⟩

end Engine

end RenderFold
