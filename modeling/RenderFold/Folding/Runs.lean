import RenderFold.Folding.Findings

/-!
# Runs

The children of a node, seen as markup: every block of neighbouring static
children is one literal, and the other children stay as they are.

## Main definitions

* `Run`: A literal or a child that is not static.
* `Findings.runs`: The runs of a list of children.
* `Run.literal?`: The one literal that all children amount to.

## Theorems

* `Findings.literal?_runs_iff`: When children amount to one literal.
-/

namespace RenderFold

/-- A block of neighbouring static children, or a child that is not static. -/
inductive Run where
  | literal (text : String)
  | child (slot : Script.Id)
  deriving DecidableEq, Inhabited

namespace Run

/-- Put a literal before runs. It joins a literal that comes first. -/
def prependLiteral (text : String) : List Run → List Run
  | .literal later :: rest => .literal (text ++ later) :: rest
  | runs => .literal text :: runs

/-- The one literal that all children amount to, if they are all static. No
    children amount to no markup. -/
def literal? : List Run → Option String
  | [] => some ""
  | [.literal text] => some text
  | _ => none

theorem literal?_prependLiteral (text : String) (runs : List Run) :
    literal? (prependLiteral text runs) = (literal? runs).map (text ++ ·) := by
  rcases runs with _ | ⟨_ | _, _ | _⟩
  · simp only [prependLiteral, literal?, Option.map_some, String.append_empty]
  · rfl
  · rfl
  · rfl
  · rfl

end Run

/-- The runs of a list of children. -/
def Findings.runs (findings : Findings) : List Script.Id → List Run
  | [] => []
  | slot :: rest =>
    match Findings.literal? findings slot with
    | some text => Run.prependLiteral text (runs findings rest)
    | none => .child slot :: runs findings rest

namespace Findings

open Script (Id)

variable {findings : Findings} {slot : Id} {slots : List Id} {text : String}

theorem runs_cons_of_some (h : findings.literal? slot = some text) (slots : List Id) :
    findings.runs (slot :: slots) = Run.prependLiteral text (findings.runs slots) := by
  rw [runs, h]

theorem runs_cons_of_none (h : findings.literal? slot = none) (slots : List Id) :
    findings.runs (slot :: slots) = .child slot :: findings.runs slots := by
  rw [runs, h]

/-- All children are static if they amount to one literal, and only then; it
    is the markup of all of them. -/
theorem literal?_runs_iff :
    Run.literal? (findings.runs slots) = some text ↔
      (∀ slot ∈ slots, (findings.literal? slot).isSome = true) ∧
        text = String.join (slots.filterMap findings.literal?) := by
  induction slots generalizing text with
  | nil =>
      refine ⟨fun h => ⟨List.forall_mem_nil _, (Option.some.inj h).symm⟩, fun h => ?_⟩
      rw [h.2]
      rfl
  | cons slot slots ih =>
      cases hslot : findings.literal? slot with
      | none =>
          rw [runs_cons_of_none hslot]
          constructor
          · intro h
            cases h
          · rintro ⟨hstatic, -⟩
            have hself := hstatic slot List.mem_cons_self
            rw [hslot] at hself
            cases hself
      | some first =>
          rw [runs_cons_of_some hslot, Run.literal?_prependLiteral, Option.map_eq_some_iff,
            List.filterMap_cons_some hslot, String.join_cons, List.forall_mem_cons, hslot]
          constructor
          · rintro ⟨rest, hrest, rfl⟩
            obtain ⟨hstatic, rfl⟩ := ih.mp hrest
            exact ⟨⟨rfl, hstatic⟩, rfl⟩
          · rintro ⟨⟨-, hstatic⟩, rfl⟩
            exact ⟨_, ih.mpr ⟨hstatic, rfl⟩, rfl⟩

end Findings

end RenderFold
