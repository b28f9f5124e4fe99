import RenderFold.Component.RenderFunction
import RenderFold.Proofs.Script.Building

/-!
# Reading Gives Trees

A render function that has been read is a tree: no part of it is shared and
no path in it is endless. The parser adds every node after its parts and
hands each index on exactly once, to the node that becomes its parent.

`Grows` is what one parser does to the indices its caller is still holding:
as long as these are trees, the indices held afterwards are trees as well.

## Main definitions

* `Parser.Grows`: Trees that are held stay trees.

## Theorems

* `Parser.Makes.grows`: A parser that builds what it hands on grows trees.
* `Parser.grows_program`: A whole render function is a tree.
* `RenderFunction.isTree`: A render function that has been read is a tree.
-/

namespace RenderFold

namespace Script

namespace Parser

open Arena (Extends Grown)

variable {α : Type}

/-- If the indices in `held` are trees and the parser succeeds, the arena
    keeps its nodes and the indices in `parts` are trees. They are made of
    what was held and of new nodes. -/
def Grows (held : List Id) (parser : Parse α) (parts : α → List Id) : Prop :=
  ∀ ⦃s : State⦄ ⦃a : α⦄ ⦃s' : State⦄ ⦃start : Nat⦄, parser s = .ok a s' → start ≤ s.arena.size →
    Grown start s.arena held →
      Extends s.arena s'.arena ∧ Grown start s'.arena (parts a)

/-- Building goes from trees to trees, so a parser that does nothing else
    grows them. -/
theorem Makes.grows {held : List Id} {parser : Parse α} {parts : α → List Id}
    (h : Makes held parser parts) : Grows held parser parts := by
  intro s a s' start hrun hstart hheld
  have hbuilds := h.ok hrun
  exact ⟨hbuilds.grown, hbuilds.forest hheld fun _ hx => Nat.le_trans hstart hx⟩

theorem grows_program : Grows [] program one := makes_program.grows

end Parser

end Script

/-- A render function that has been read is a tree. -/
theorem RenderFunction.isTree (function : RenderFunction) :
    ∃ span, Script.Arena.Spans function.arena [function.root] span ∧ span.Nodup := by
  obtain ⟨source, arena, root, hread⟩ := function
  obtain ⟨tokens, rest, -, hprogram⟩ := Script.parseFunction_eq_ok_iff.mp hread
  obtain ⟨_, span, hspans, hnodup, _⟩ :=
    Script.Parser.grows_program hprogram (Nat.zero_le _) (.nil 0 _)
  exact ⟨span, hspans, hnodup⟩

end RenderFold
