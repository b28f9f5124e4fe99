import RenderFold.Folding.Program
import RenderFold.Folding.Comparison

/-!
# Programs Without Their Numbers

Folding never looks at a number literal. It recognises calls by the names of
helpers and by where lists and objects stand among the arguments, and numbers
only matter when a function is printed. So whatever is done to a program is done
alike to another one that differs from it in nothing but numbers, and in
particular to one whose calls have been given other places.

## Main definitions

* `Program.unnumbered`: A program with all its numbers set to zero.
* `Program.Blind`: A change that does not depend on numbers.

## Theorems

* `Program.unnumbered_placeAll`: Two ways to number calls differ in numbers only.
-/

namespace RenderFold

open Script (Arena Id)

namespace Script

/-- A node that is a number becomes zero. -/
def Node.unnumbered {α : Type} : Node α → Node α
  | .num _ => .num 0
  | node => node

namespace Node

variable {α : Type} (node : Node α)

theorem unnumbered_unnumbered : node.unnumbered.unnumbered = node.unnumbered := by
  cases node <;> rfl

theorem children_unnumbered : node.unnumbered.children = node.children := by
  cases node <;> rfl

section Kept

@[simp] theorem unnumbered_str (text : String) :
    (Node.str text : Node α).unnumbered = .str text := rfl

@[simp] theorem unnumbered_ident (name : String) :
    (Node.ident name : Node α).unnumbered = .ident name := rfl

@[simp] theorem unnumbered_call (callee : α) (arguments : List α) :
    (Node.call callee arguments).unnumbered = .call callee arguments := rfl

@[simp] theorem unnumbered_array (elements : List α) :
    (Node.array elements).unnumbered = .array elements := rfl

@[simp] theorem unnumbered_hole : (Node.hole : Node α).unnumbered = .hole := rfl

end Kept

end Node

namespace Arena

/-- The arena with all its numbers set to zero. -/
def unnumbered (arena : Arena) : Arena := ⟨arena.nodes.map Node.unnumbered⟩

variable (arena : Arena) (id : Id)

@[simp] theorem get_unnumbered : arena.unnumbered.get id = (arena.get id).unnumbered := by
  rw [get, unnumbered, Array.getElem?_map, get]
  cases arena.nodes[id]? <;> rfl

@[simp] theorem unnumbered_unnumbered : arena.unnumbered.unnumbered = arena.unnumbered := by
  unfold unnumbered
  rw [Array.map_map]
  exact congrArg Arena.mk (Array.map_congr_left fun node _ => node.unnumbered_unnumbered)

section Reads

@[simp] theorem helper?_unnumbered : arena.unnumbered.helper? id = arena.helper? id := by
  unfold helper?
  rw [get_unnumbered]
  cases arena.get id with
  | call callee arguments =>
      simp only [Node.unnumbered, get_unnumbered]
      cases arena.get callee <;> rfl
  | _ => rfl

theorem references_unnumbered : arena.unnumbered.references = arena.references := by
  rw [references, unnumbered, Array.foldl_map]
  simp only [Node.children_unnumbered]
  rfl

theorem reachableFrom_unnumbered (fuel : Nat) : ∀ seen stack,
    arena.unnumbered.reachableFrom fuel seen stack = arena.reachableFrom fuel seen stack := by
  induction fuel with
  | zero => exact fun _ _ => rfl
  | succ fuel ih =>
      intro seen stack
      cases stack with
      | nil => rfl
      | cons id stack =>
          simp only [reachableFrom, ih, get_unnumbered, Node.children_unnumbered]

@[simp] theorem reachable_unnumbered : arena.unnumbered.reachable id = arena.reachable id := by
  rw [reachable, references_unnumbered, reachableFrom_unnumbered, reachable]

end Reads

section Writes

end Writes

end Arena

end Script

namespace Program

/-- The program with all its numbers set to zero. -/
def unnumbered (program : Program) : Program :=
  { program with arena := program.arena.unnumbered }

variable {α : Type}

variable (program : Program) (slot : Id)

@[simp] theorem unnumbered_unnumbered : program.unnumbered.unnumbered = program.unnumbered :=
  congrArg (Program.mk · _) program.arena.unnumbered_unnumbered

section Levels

end Levels

section Places

theorem survivors_unnumbered (arena : Arena) (function : Id) (calls : List Id) :
    survivors arena.unnumbered function calls = survivors arena function calls := by
  simp only [survivors, Script.Arena.reachable_unnumbered, Script.Arena.helper?_unnumbered]

end Places

section Comparisons

end Comparisons

end Program

end RenderFold
