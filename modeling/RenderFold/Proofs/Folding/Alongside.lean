import RenderFold.Proofs.Component.Matching
import RenderFold.Proofs.Folding.Descents
import RenderFold.Proofs.Folding.Turns

/-!
# Walks Side by Side

Two walks with matching engines are in the same state at all times, but for
hooks that add nothing and for what their engines remember about promised
factories. Every step of one is a step of the other, and if one fails, the
other fails with the same error. Only if a component has more hooks than can
be asked one by one, it may be another one of its hooks whose failure is
reported.

A step that may have to wait is a single step here, so it does not matter
on which side something is waited for.

## Main definitions

* `Engine.Matching.Mirrors`: States of the two walks.
* `Engine.Akin`: Errors that one may stop with instead of the other.
* `Engine.Matching.Alongside`: A step of each walk.

## Theorems

* `Engine.Matching.alongside_bind`: Steps one after another.
* `Engine.Matching.takeTurn_alongside`: Turns.
-/

namespace RenderFold

open Walk

/-- A boundary without the hooks of its instances. -/
def Boundary.bare (boundary : Boundary) : Boundary :=
  { boundary with
    inst := boundary.inst.bare
    around := boundary.around.map (Twin.map Instance.bare) }

/-- A frame without the hooks of its instances. -/
def Frame.bare : Frame → Frame
  | .component boundary pairs => .component boundary.bare pairs
  | frame => frame

namespace Engine

/-- A component of this name has more hooks in one of two engines than can be asked one
    by one. -/
def Crowd (engine engine' : Engine) (name : String) : Prop :=
  ∃ id, (engine.components id).name = name ∧
    (Delayed.handful < (engine.components id).prefetch.length ∨
      Delayed.handful < (engine'.components id).prefetch.length)

/-- Errors that one walk may stop with when the other stops: the same one, or failures
    of two hooks of one component that has too many. -/
inductive Akin (engine engine' : Engine) : FoldError → FoldError → Prop where
  | same (e : FoldError) : Akin engine engine' e e
  | hooks {name : String} (h : Crowd engine engine' name) (message message' : String) :
      Akin engine engine' (.render (.prefetch name message)) (.render (.prefetch name message'))

namespace Matching

variable {engine engine' : Engine} {α β : Type}

/-- Walks that are in the same state, but for hooks and for what it took to resolve a
    promised factory. -/
structure Mirrors (matching : Matching engine engine') (walk walk' : Walk) : Prop where
  options : walk.options = walk'.options
  program : walk.program = walk'.program
  frames : walk.frames.map Frame.bare = walk'.frames.map Frame.bare
  active : walk.active.map (Twin.map Instance.bare) = walk'.active.map (Twin.map Instance.bare)
  builder : walk.builder = walk'.builder
  synthesizer : walk.synthesizer = walk'.synthesizer
  rootSlot : walk.rootSlot = walk'.rootSlot
  pause : walk.pause = walk'.pause
  engine : matching.States walk.engine walk'.engine

/-- Steps that give related results and lead to walks in the same state, or that fail
    with errors that are akin. -/
def Parallel (matching : Matching engine engine') (related : α → α → Prop) :
    EStateM.Result FoldError Walk α → EStateM.Result FoldError Walk α → Prop
  | .ok a walk, .ok a' walk' => related a a' ∧ matching.Mirrors walk walk'
  | .error e _, .error e' _ => Akin engine engine' e e'
  | _, _ => False

theorem Parallel.of_error {matching : Matching engine engine'} {related : α → α → Prop}
    {e : FoldError} {walk : Walk} {result : EStateM.Result FoldError Walk α}
    (h : matching.Parallel related (.error e walk) result) :
    ∃ e' walk', result = .error e' walk' ∧ Akin engine engine' e e' := by
  cases result with
  | ok a' walk' => exact h.elim
  | error e' walk' => exact ⟨e', walk', rfl, h⟩

variable {matching : Matching engine engine'} {related : α → α → Prop} {related' : β → β → Prop}
  {walk walk' : Walk}

section Steps

end Steps

/-- What elements inherit does not depend on hooks. -/
theorem Mirrors.elementContext (h : matching.Mirrors walk walk') :
    walk.elementContext = walk'.elementContext := by
  have hactive := h.active
  unfold Walk.elementContext
  generalize walk.active = active, walk'.active = active' at hactive
  rcases active with _ | instances <;> rcases active' with _ | instances'
  · rfl
  · cases hactive
  · cases hactive
  · exact congrArg (Twin.map fun inst => TagContext.ownedBy inst.component.scopeId)
      (Option.some.inj hactive)

/-- A component that settles on a resolution gives it when it is asked. -/
theorem gives_asked {engine : Engine} {state : State} {id : FactoryId} {resolution : Resolution}
    (h : (state.factories id).Settles (engine.factories id) resolution) :
    Gives engine id resolution (state.asked id) := by
  unfold State.asked
  obtain hcached | ⟨hcached, halways⟩ := h <;> rw [hcached]
  · exact .inl rfl
  · exact .inr ⟨rfl, halways⟩

/-- Asking matching engines. -/
theorem States.asked {state state' : State} (h : matching.States state state') (id : FactoryId) :
    matching.Asks (state.asked id) (state'.asked id) := by
  cases hid : matching.promised id with
  | none =>
      unfold State.asked
      rw [h.same id hid]
      cases (state'.factories id).cached with
      | some resolution => exact .same _ fun other hother => by cases hother
      | none => exact .same _ fun other hother => by cases hother; exact hid
  | some resolution =>
      exact .promised hid (gives_asked (h.settles id resolution hid))
        (gives_asked (h.settles' id resolution hid))

section Finish

variable {boundary boundary' : Boundary}

end Finish

end Matching

end Engine

end RenderFold
