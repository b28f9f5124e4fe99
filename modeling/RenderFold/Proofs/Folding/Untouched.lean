import RenderFold.Proofs.Folding.Reach

/-!
# What Comparing Leaves Alone

Comparing pairs works on the program, the frames and the engine, and opens
entries. Whatever depends on none of these is the same afterwards, also if
the comparison fails: the options, what has been read by the synthesizer, and
the entries that have been closed.

## Main definitions

* `Walk.Preserves`: Steps that leave a part of a walk as it is.
* `Walk.Untouched`: A part of a walk that depends on nothing that comparing
  pairs works on.
* `Builder.trees`: The entries that have been closed and are still there.

## Theorems

* `Walk.compare_preserves`, `Walk.resume_preserves`: Comparing pairs and going
  on after a pause.
* `Walk.Reaches.options_eq`: The options never change.
-/

namespace RenderFold

namespace Walk

variable {α β γ : Type} {part : Walk → γ} {engine : Engine}

/-- Steps that leave a part of a walk as it is. -/
def Preserves (part : Walk → γ) (work : Walking α) : Prop :=
  ∀ walk, Leads work walk (fun _ after => part after = part walk)
    (fun after => part after = part walk)

/-- A part of a walk that depends neither on its program, its frames and its
    engine nor on what entering a component changes. -/
structure Untouched (part : Walk → γ) : Prop where
  program : ∀ walk program, part { walk with program } = part walk
  frames : ∀ walk frames, part { walk with frames } = part walk
  engine : ∀ walk engine, part { walk with engine } = part walk
  enter : ∀ (walk : Walk) active component styles,
    part { walk with active, builder := walk.builder.enter component styles } = part walk

theorem preserves_pure (a : α) : Preserves part (pure a) := fun _ => rfl

theorem preserves_throw (e : FoldError) : Preserves part (throw e : Walking α) := fun _ => rfl

theorem preserves_get : Preserves part get := fun _ => rfl

theorem preserves_modify {change : Walk → Walk} (h : ∀ walk, part (change walk) = part walk) :
    Preserves part (modify change) := h

theorem preserves_bind {work : Walking β} {next : β → Walking α} (h : Preserves part work)
    (hnext : ∀ b, Preserves part (next b)) : Preserves part (work >>= next) := by
  intro walk
  rw [leads_bind]
  refine leads_mono (h walk) (fun b after hafter => ?_) fun after hafter => hafter
  exact leads_mono (hnext b after) (fun _ last hlast => hlast.trans hafter)
    fun last hlast => hlast.trans hafter

/-- What holds of a part that stays as it is holds afterwards. -/
theorem Preserves.leads {work : Walking α} {holds : γ → Prop} {walk : Walk}
    (h : Preserves part work) (hwalk : holds (part walk)) :
    Leads work walk (fun _ after => holds (part after)) (fun after => holds (part after)) := by
  refine leads_mono (h walk) (fun _ after hafter => ?_) fun after hafter => ?_
  · rw [hafter]
    exact hwalk
  · rw [hafter]
    exact hwalk

theorem preserves_ofExcept (result : Except RenderError α) :
    Preserves part (ofExcept result) := by
  intro walk
  rw [leads_ofExcept]
  split <;> rfl

namespace Untouched

variable (h : Untouched part)

include h

theorem onProgram (change : Program → Program) : Preserves part (Walk.onProgram change) :=
  fun walk => h.program walk _

theorem fromProgram (change : Program → α × Program) : Preserves part (Walk.fromProgram change) :=
  fun walk => h.program walk _

theorem pushFrame (frame : Frame) : Preserves part (Walk.pushFrame frame) :=
  fun walk => h.frames walk _

theorem onEngine (work : EngineM α) : Preserves part (Walk.onEngine work) := by
  intro walk
  rw [leads_onEngine]
  split <;> exact h.engine walk _

theorem descend (slot : Script.Id) (closing : String) (children : Twin (List View)) :
    Preserves part (Walk.descend slot closing children) :=
  preserves_bind (h.fromProgram _) fun _ => preserves_bind preserves_get fun _ => h.pushFrame _

theorem compareFragments (slot : Script.Id) (opening closing : Twin String)
    (children : Twin (List View)) :
    Preserves part (Walk.compareFragments slot opening closing children) := by
  unfold Walk.compareFragments
  split
  · dsimp only
    split
    · exact h.onProgram _
    · exact preserves_pure _
  · split
    · exact preserves_bind (h.onProgram _) fun _ => h.descend _ _ _
    · exact preserves_pure _

theorem compareElements (pair : Pair) (tag : String) (data : Twin NodeData)
    (children : Twin (List View)) :
    Preserves part (Walk.compareElements engine pair tag data children) := by
  unfold Walk.compareElements
  dsimp only
  split
  · exact h.onProgram _
  · split
    · split
      · exact h.onProgram _
      · split
        · split
          · exact preserves_bind (h.onProgram _) fun _ => h.descend _ _ _
          · exact h.descend _ _ _
        · exact preserves_pure _
    · split
      · exact h.onProgram _
      · exact preserves_pure _
    · exact preserves_pure _

theorem enterComponent (pending : Pending) :
    Preserves part (Walk.enterComponent engine pending) :=
  preserves_bind (preserves_ofExcept _) fun _ => preserves_bind (preserves_ofExcept _) fun _ =>
    preserves_bind (h.fromProgram _) fun _ => preserves_bind preserves_get fun _ =>
      preserves_bind (preserves_modify fun walk => h.enter walk _ _ _) fun _ => h.pushFrame _

theorem compareComponents (pair : Pair) (component : Twin Component) (data : Twin NodeData) :
    Preserves part (Walk.compareComponents engine pair component data) := by
  unfold Walk.compareComponents
  split
  · exact preserves_pure _
  · refine preserves_bind preserves_get fun _ => preserves_bind (h.onEngine _) fun _ =>
      preserves_bind (h.onEngine _) fun _ => preserves_bind (h.fromProgram _) fun _ => ?_
    dsimp only
    split
    · exact preserves_pure _
    · exact preserves_bind (h.enterComponent _) fun _ => preserves_pure _

theorem compareResolved {compare : Pair → Walking (Option Suspension)}
    (hcompare : ∀ pair, Preserves part (compare pair)) (pair : Pair) (data : Twin NodeData)
    (resolutions : Twin Resolution) :
    Preserves part (Walk.compareResolved engine compare pair data resolutions) := by
  unfold Walk.compareResolved
  split
  · exact h.compareComponents _ _ _
  · exact hcompare _
  · split
    · exact preserves_bind (h.fromProgram _) fun _ => preserves_bind (h.pushFrame _) fun _ =>
        preserves_pure _
    · exact preserves_pure _
  · exact preserves_bind (h.onProgram _) fun _ => preserves_pure _

end Untouched

/-- Comparing a pair leaves alone what does not depend on the program, the
    frames, the engine and what is entered. -/
theorem compare_preserves (h : Untouched part) (depth : Nat) :
    ∀ pair, Preserves part (compare engine depth pair) := by
  induction depth with
  | zero => exact fun _ => preserves_throw _
  | succ depth ih =>
      intro pair
      unfold compare
      split
      · exact preserves_bind (h.onProgram _) fun _ => preserves_pure _
      · refine preserves_bind preserves_get fun _ => ?_
        split
        · exact preserves_bind (h.onProgram _) fun _ => preserves_pure _
        · exact preserves_pure _
      · exact preserves_bind (h.compareFragments _ _ _ _) fun _ => preserves_pure _
      · split
        · exact preserves_bind (h.compareElements _ _ _ _) fun _ => preserves_pure _
        · exact preserves_pure _
      · exact h.compareComponents _ _ _
      · refine preserves_bind (h.onEngine _) fun _ => preserves_bind (h.onEngine _) fun _ => ?_
        split
        · exact h.compareResolved ih _ _ _
        · exact preserves_pure _
      · exact preserves_pure _

/-- Going on after a pause leaves the same alone, if it does not depend on the
    pause either. -/
theorem resume_preserves (h : Untouched part)
    (hpause : ∀ (walk : Walk) pause, part { walk with pause } = part walk)
    (continuation : Continuation) (resolved : Resolved) :
    Preserves part (resume engine continuation resolved) := by
  unfold resume
  refine preserves_bind preserves_get fun _ => ?_
  split
  · refine preserves_bind (preserves_modify fun walk => hpause walk _) fun _ => ?_
    split
    · exact h.enterComponent _
    · refine preserves_bind (h.compareResolved (compare_preserves h maxChain) _ _ _) fun _ => ?_
      split
      · exact preserves_modify fun walk => hpause walk _
      · exact preserves_pure _
    · exact preserves_throw _
  · exact preserves_throw _

section Moves

variable {start walk : Walk} {events : List Event} {out : Option Suspension}

theorem untouched_options : Untouched (·.options) :=
  ⟨fun _ _ => rfl, fun _ _ => rfl, fun _ _ => rfl, fun _ _ _ _ => rfl⟩

theorem untouched_synthesizer : Untouched (·.synthesizer) :=
  ⟨fun _ _ => rfl, fun _ _ => rfl, fun _ _ => rfl, fun _ _ _ _ => rfl⟩

/-- A walk keeps its options. -/
theorem Reaches.options_eq (h : Reaches engine start events out walk) :
    walk.options = start.options := by
  induction h with
  | start => rfl
  | @compare _ _ _ _ pair _ _ _ _ _ _ _ hleaves ih =>
      have hleads : Preserves (·.options) (Walk.compare engine maxChain pair) :=
        compare_preserves untouched_options maxChain pair
      cases hleaves with
      | @ok found _ hwork =>
          have hafter := leads_ok (hleads _) hwork
          cases found with
          | none => exact hafter.trans ih
          | some suspension => exact hafter.trans ih
      | error hwork => exact (leads_error (hleads _) hwork).trans ih
  | @finish _ _ frame _ _ _ _ _ _ _ hleaves ih =>
      have hsteady : Steady (Walk.finish engine frame) := finish_steady frame
      cases hleaves with
      | ok hwork => exact (leads_ok (hsteady _) hwork).2.trans ih
      | error hwork => exact (leads_error (hsteady _) hwork).2.trans ih
  | handOut _ _ ih => exact ih
  | @resume _ _ _ resolved continuation _ _ _ _ _ hleaves ih =>
      have hleads : Preserves (·.options) (Walk.resume engine continuation resolved) :=
        resume_preserves untouched_options (fun _ _ => rfl) continuation resolved
      cases hleaves with
      | ok hwork => exact (leads_ok (hleads _) hwork).trans ih
      | error hwork => exact (leads_error (hleads _) hwork).trans ih
  | fail _ _ ih => exact ih

end Moves

end Walk

namespace Builder

/-- The entries that have been closed and are still there. -/
def trees (builder : Builder) : List FoldedTree :=
  builder.root.toList ++ builder.entries.flatMap fun entry => entry.children.map (·.2)

end Builder

theorem Walk.untouched_trees : Walk.Untouched (·.builder.trees) :=
  ⟨fun _ _ => rfl, fun _ _ => rfl, fun _ _ => rfl, fun _ _ _ _ => rfl⟩

end RenderFold
