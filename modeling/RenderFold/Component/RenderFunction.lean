import RenderFold.Script.Parser
import RenderFold.Script.Printer

/-!
# Render Functions

A render function that has been read. Nothing in its source is run until an
engine runs it for an instance.

## Main definitions

* `RenderFunction`: A source text and what it was read into.
* `RenderFunction.compile`: Read a source text.
-/

namespace RenderFold

/-- A source text, the arena it was read into and the index of its root. Two
    render functions are the same if their sources are. -/
structure RenderFunction where
  source : String
  arena : Script.Arena
  root : Script.Id
  /-- The arena is what reading the source gives. -/
  wasRead : Script.parseFunction source = .ok (arena, root)

namespace RenderFunction

/-- Read a source text. -/
def compile (source : String) : Except Script.SyntaxError RenderFunction :=
  match h : Script.parseFunction source with
  | .ok (arena, root) => .ok ⟨source, arena, root, h⟩
  | .error e => .error e

theorem compile_eq_ok_iff {source : String} {function : RenderFunction} :
    compile source = .ok function ↔ function.source = source := by
  constructor
  · intro h
    unfold compile at h
    split at h
    · cases h
      rfl
    · cases h
  · rintro rfl
    unfold compile
    split
    · next arena root h =>
        obtain ⟨source, arena', root', hread⟩ := function
        cases h.symm.trans hread
        rfl
    · next e h => cases h.symm.trans function.wasRead

/-- The function that does nothing. -/
instance : Inhabited RenderFunction :=
  ⟨{ source := ""
     arena := ⟨#[.function none [] []]⟩
     root := 0
     wasRead := by
      simp [Script.parseFunction, Script.Arena.parse, Script.Parser.run, Script.tokenize,
        Script.Lexer.tokensFrom, Script.Lexer.skipTrivia]
      rfl }⟩

/-- The tree of the function. -/
def tree (function : RenderFunction) : Script.Tree := function.arena.tree function.root

/-- Whether two render functions are the same. -/
def same (a b : RenderFunction) : Bool := a.source == b.source

end RenderFunction

end RenderFold
