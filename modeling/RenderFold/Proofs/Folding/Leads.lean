import RenderFold.Folding.Fold

/-!
# What a Step Leads To

A step of a walk either succeeds, with a result, or fails, and leaves a walk
behind in both cases. What holds afterwards is put together from what holds
after the parts of the step, one lemma for each part that steps are made of.

## Main definitions

* `Walk.Leads`: What holds after a step.
* `Walk.Steady`: Steps that neither pause a walk nor change its options.

## Theorems

* `Walk.leads_bind`: One part after another.
* `Walk.leads_mono`: Weakening what holds afterwards.
* `Walk.compare_steady`, `Walk.finish_steady`: Comparing a pair and closing a
  frame do not pause the walk.
-/

namespace RenderFold

namespace Walk

variable {α β : Type} {walk : Walk} {ok ok' : α → Walk → Prop} {bad bad' : Walk → Prop}

/-- After a step from `walk`, `ok` holds of the result and the walk if the
    step succeeds, and `bad` of the walk if it fails. -/
def Leads (work : Walking α) (walk : Walk) (ok : α → Walk → Prop) (bad : Walk → Prop) : Prop :=
  match work walk with
  | .ok a after => ok a after
  | .error _ after => bad after

theorem leads_of_eq {work : Walking α} (hok : ∀ a after, work walk = .ok a after → ok a after)
    (hbad : ∀ e after, work walk = .error e after → bad after) : Leads work walk ok bad := by
  unfold Leads
  cases hwork : work walk with
  | ok a after => exact hok a after hwork
  | error e after => exact hbad e after hwork

theorem leads_ok {work : Walking α} {a : α} {after : Walk} (h : Leads work walk ok bad)
    (hwork : work walk = .ok a after) : ok a after := by
  rwa [Leads, hwork] at h

theorem leads_error {work : Walking α} {e : FoldError} {after : Walk}
    (h : Leads work walk ok bad) (hwork : work walk = .error e after) : bad after := by
  rwa [Leads, hwork] at h

theorem leads_mono {work : Walking α} (h : Leads work walk ok bad)
    (hok : ∀ a after, ok a after → ok' a after) (hbad : ∀ after, bad after → bad' after) :
    Leads work walk ok' bad' :=
  leads_of_eq (fun a after hwork => hok a after (leads_ok h hwork)) fun _ after hwork =>
    hbad after (leads_error h hwork)

theorem leads_bind {work : Walking β} {next : β → Walking α} :
    Leads (work >>= next) walk ok bad ↔
      Leads work walk (fun b after => Leads (next b) after ok bad) bad := by
  simp only [Leads, bind, EStateM.bind]
  cases work walk <;> rfl

theorem leads_get {ok : Walk → Walk → Prop} : Leads get walk ok bad ↔ ok walk walk := Iff.rfl

theorem leads_modify {ok : Unit → Walk → Prop} {change : Walk → Walk} :
    Leads (modify change) walk ok bad ↔ ok () (change walk) := Iff.rfl

theorem leads_onProgram {ok : Unit → Walk → Prop} {change : Program → Program} :
    Leads (onProgram change) walk ok bad ↔
      ok () { walk with program := change walk.program } := Iff.rfl

theorem leads_fromProgram {change : Program → α × Program} :
    Leads (fromProgram change) walk ok bad ↔
      ok (change walk.program).1 { walk with program := (change walk.program).2 } := Iff.rfl

theorem leads_pushFrame {ok : Unit → Walk → Prop} {frame : Frame} :
    Leads (pushFrame frame) walk ok bad ↔ ok () { walk with frames := frame :: walk.frames } :=
  Iff.rfl

theorem leads_onEngine {work : EngineM α} :
    Leads (onEngine work) walk ok bad ↔
      match work walk.engine with
      | .ok a state => ok a { walk with engine := state }
      | .error _ state => bad { walk with engine := state } := by
  unfold Leads onEngine
  cases work walk.engine <;> rfl

theorem leads_ofExcept {result : Except RenderError α} :
    Leads (ofExcept result) walk ok bad ↔
      match result with
      | .ok a => ok a walk
      | .error _ => bad walk := by
  cases result <;> rfl

theorem leads_onSynthesizer {work : Synthesizer → α × Synthesizer} :
    Leads (onSynthesizer work) walk ok bad ↔
      ok (work walk.synthesizer).1
        { walk with synthesizer := (work walk.synthesizer).2 } := Iff.rfl

theorem leads_closeEntry {ok : Unit → Walk → Prop} {slot : Script.Id} {function : RenderFunction}
    {isStatic : Bool} {stays : Script.Id → Bool} :
    Leads (closeEntry slot function isStatic stays) walk ok bad ↔
      ok () { walk with builder := walk.builder.close slot function isStatic stays } := Iff.rfl

/-- Steps that neither pause a walk nor change its options. -/
def Steady (work : Walking α) : Prop :=
  ∀ walk, Leads work walk
    (fun _ after => after.pause = walk.pause ∧ after.options = walk.options)
    (fun after => after.pause = walk.pause ∧ after.options = walk.options)

theorem steady_pure (a : α) : Steady (pure a) := fun _ => ⟨rfl, rfl⟩

theorem steady_throw (e : FoldError) : Steady (throw e : Walking α) := fun _ => ⟨rfl, rfl⟩

theorem steady_get : Steady get := fun _ => ⟨rfl, rfl⟩

theorem steady_onProgram (change : Program → Program) : Steady (onProgram change) :=
  fun _ => ⟨rfl, rfl⟩

theorem steady_fromProgram (change : Program → α × Program) : Steady (fromProgram change) :=
  fun _ => ⟨rfl, rfl⟩

theorem steady_pushFrame (frame : Frame) : Steady (pushFrame frame) := fun _ => ⟨rfl, rfl⟩

theorem steady_onSynthesizer (work : Synthesizer → α × Synthesizer) :
    Steady (onSynthesizer work) := fun _ => ⟨rfl, rfl⟩

theorem steady_closeEntry (slot : Script.Id) (function : RenderFunction) (isStatic : Bool)
    (stays : Script.Id → Bool) : Steady (closeEntry slot function isStatic stays) :=
  fun _ => ⟨rfl, rfl⟩

theorem steady_onEngine (work : EngineM α) : Steady (onEngine work) := by
  intro walk
  rw [leads_onEngine]
  split <;> exact ⟨rfl, rfl⟩

theorem steady_ofExcept (result : Except RenderError α) : Steady (ofExcept result) := by
  intro walk
  rw [leads_ofExcept]
  split <;> exact ⟨rfl, rfl⟩

theorem steady_bind {work : Walking β} {next : β → Walking α} (h : Steady work)
    (hnext : ∀ b, Steady (next b)) : Steady (work >>= next) := by
  intro walk
  rw [leads_bind]
  refine leads_mono (h walk) (fun b after hafter => ?_) fun after hafter => hafter
  refine leads_mono (hnext b after) (fun _ last hlast => ?_) fun last hlast => ?_
  · exact ⟨hlast.1.trans hafter.1, hlast.2.trans hafter.2⟩
  · exact ⟨hlast.1.trans hafter.1, hlast.2.trans hafter.2⟩

section Compare

variable {engine : Engine}

theorem descend_steady (slot : Script.Id) (closing : String) (children : Twin (List View)) :
    Steady (descend slot closing children) := by
  unfold descend
  exact steady_bind (steady_fromProgram _) fun _ => steady_bind steady_get fun _ =>
    steady_pushFrame _

theorem compareFragments_steady (slot : Script.Id) (opening closing : Twin String)
    (children : Twin (List View)) : Steady (compareFragments slot opening closing children) := by
  unfold compareFragments
  split
  · dsimp only
    split
    · exact steady_onProgram _
    · exact steady_pure _
  · split
    · exact steady_bind (steady_onProgram _) fun _ => descend_steady _ _ _
    · exact steady_pure _

theorem compareElements_steady (pair : Pair) (tag : String) (data : Twin NodeData)
    (children : Twin (List View)) : Steady (compareElements engine pair tag data children) := by
  unfold compareElements
  dsimp only
  split
  · exact steady_onProgram _
  · split
    · split
      · exact steady_onProgram _
      · split
        · split
          · exact steady_bind (steady_onProgram _) fun _ => descend_steady _ _ _
          · exact descend_steady _ _ _
        · exact steady_pure _
    · split
      · exact steady_onProgram _
      · exact steady_pure _
    · exact steady_pure _

theorem enterComponent_steady (pending : Pending) : Steady (enterComponent engine pending) := by
  unfold enterComponent
  refine steady_bind (steady_ofExcept _) fun _ => steady_bind (steady_ofExcept _) fun _ =>
    steady_bind (steady_fromProgram _) fun _ => steady_bind steady_get fun _ =>
    steady_bind (fun _ => ⟨rfl, rfl⟩) fun _ => steady_pushFrame _

theorem compareComponents_steady (pair : Pair) (component : Twin Component)
    (data : Twin NodeData) : Steady (compareComponents engine pair component data) := by
  unfold compareComponents
  split
  · exact steady_pure _
  · refine steady_bind steady_get fun walk => steady_bind (steady_onEngine _) fun own =>
      steady_bind (steady_onEngine _) fun dynamic => steady_bind (steady_fromProgram _) fun _ => ?_
    dsimp only
    split
    · exact steady_pure _
    · exact steady_bind (enterComponent_steady _) fun _ => steady_pure _

theorem compareResolved_steady {compare : Pair → Walking (Option Suspension)}
    (hcompare : ∀ pair, Steady (compare pair)) (pair : Pair) (data : Twin NodeData)
    (resolutions : Twin Resolution) :
    Steady (compareResolved engine compare pair data resolutions) := by
  unfold compareResolved
  split
  · exact compareComponents_steady _ _ _
  · exact hcompare _
  · split
    · exact steady_bind (steady_fromProgram _) fun _ => steady_bind (steady_pushFrame _) fun _ =>
        steady_pure _
    · exact steady_pure _
  · exact steady_bind (steady_onProgram _) fun _ => steady_pure _

/-- Comparing a pair does not pause the walk. -/
theorem compare_steady : ∀ depth pair, Steady (compare engine depth pair) := by
  intro depth
  -- By induction on the depth, as views that async components resolved to are
  -- compared one level down.
  induction depth with
  | zero => exact fun pair => steady_throw _
  | succ depth ih =>
      intro pair
      unfold compare
      split
      · exact steady_bind (steady_onProgram _) fun _ => steady_pure _
      · refine steady_bind steady_get fun walk => ?_
        split
        · exact steady_bind (steady_onProgram _) fun _ => steady_pure _
        · exact steady_pure _
      · exact steady_bind (compareFragments_steady _ _ _ _) fun _ => steady_pure _
      · split
        · exact steady_bind (compareElements_steady _ _ _ _) fun _ => steady_pure _
        · exact steady_pure _
      · exact compareComponents_steady _ _ _
      · refine steady_bind (steady_onEngine _) fun static =>
          steady_bind (steady_onEngine _) fun dynamic => ?_
        split
        · exact compareResolved_steady ih _ _ _
        · exact steady_pure _
      · exact steady_pure _

theorem leaveStatic_steady (boundary : Boundary) (text : String) :
    Steady (leaveStatic boundary text) := by
  unfold leaveStatic
  refine steady_bind (steady_onSynthesizer _) fun result => ?_
  split
  · exact steady_throw _
  · exact steady_bind (steady_onProgram _) fun _ => steady_bind steady_get fun _ =>
      steady_closeEntry _ _ _ _

theorem leaveRewritten_steady (boundary : Boundary) (function : Script.Id) :
    Steady (leaveRewritten engine boundary function) := by
  unfold leaveRewritten
  refine steady_bind steady_get fun walk => steady_bind (steady_onProgram _) fun _ =>
    steady_bind steady_get fun _ => steady_bind (steady_onSynthesizer _) fun rewritten => ?_
  split
  · exact steady_closeEntry _ _ _ _
  · exact steady_closeEntry _ _ _ _

/-- Closing a frame does not pause the walk. -/
theorem finish_steady (frame : Frame) : Steady (finish engine frame) := by
  cases frame with
  | element slot closing pairs => exact fun _ => ⟨rfl, rfl⟩
  | group slot pairs => exact fun _ => ⟨rfl, rfl⟩
  | component boundary pairs =>
      refine steady_bind (fun _ => ⟨rfl, rfl⟩) fun _ => steady_bind steady_get fun walk => ?_
      dsimp only
      split
      · exact leaveStatic_steady _ _
      · split
        · exact steady_closeEntry _ _ _ _
        · split
          · exact steady_closeEntry _ _ _ _
          · exact leaveRewritten_steady _ _

end Compare

end Walk

end RenderFold
