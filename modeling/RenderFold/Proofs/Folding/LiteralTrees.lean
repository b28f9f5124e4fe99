import RenderFold.Folding.FoldedTree
import RenderFold.Folding.Synthesizer
import RenderFold.Proofs.Html.Serialized
import RenderFold.Proofs.Script.Literals

/-!
# Literal Trees

A component that is static gets a function that returns its markup. Making
such a function never fails, whatever the markup, and writing the component
with it writes the markup as it is.

## Main definitions

* `Synthesizer.Sound`: What a synthesizer remembers is what it has read.
* `FoldedTree.IsLiteral`: A tree that consists of one literal.

## Theorems

* `Synthesizer.literal_spec`: Making a literal function.
* `FoldedTree.IsLiteral.html`: Writing a component as a literal.
-/

namespace RenderFold

open Script (Tree)

/-- Functions with one source are the same function. -/
theorem RenderFunction.tree_of_read {function : RenderFunction} {source : String}
    {arena : Script.Arena} {root : Script.Id} (hsource : function.source = source)
    (hread : Script.parseFunction source = .ok (arena, root)) :
    function.tree = arena.tree root := by
  have hown := function.wasRead
  rw [hsource, hread] at hown
  cases hown
  rfl

namespace Synthesizer

/-- What is remembered for a source was read from it. -/
def Sound (synthesizer : Synthesizer) : Prop :=
  ∀ source function, synthesizer.cache.get? fingerprint source = some function →
    function.source = source

theorem new_sound (validates : Bool) : (new validates).Sound := by
  intro source function h
  cases h

/-- Reading a source that can be read gives the function that it is the source
    of, remembered or not. -/
theorem compile_spec {synthesizer : Synthesizer} {source : String} {arena : Script.Arena}
    {root : Script.Id} (h : synthesizer.Sound)
    (hread : Script.parseFunction source = .ok (arena, root)) :
    ∃ function, (synthesizer.compile source).1 = .ok function ∧ function.source = source ∧
      (synthesizer.compile source).2.Sound := by
  unfold compile SourceCache.getOrBuild
  cases hcached : synthesizer.cache.get? fingerprint source with
  | some function => exact ⟨function, rfl, h source function hcached, h⟩
  | none =>
      have hcompile : RenderFunction.compile source = .ok ⟨source, arena, root, hread⟩ :=
        RenderFunction.compile_eq_ok_iff.mpr rfl
      dsimp only
      rw [hcompile]
      -- What is remembered under this source was read just now. What is remembered
      -- under others was there before.
      refine ⟨_, rfl, rfl, fun other function hother => ?_⟩
      by_cases hsame : other = source
      · subst hsame
        dsimp only at hother
        rw [SourceCache.get?_insert_self] at hother
        cases hother
        rfl
      · dsimp only at hother
        rw [SourceCache.get?_insert_of_ne _ _ hsame] at hother
        exact h other function hother

/-- Making a literal function gives one that returns the text. -/
theorem literal_spec {synthesizer : Synthesizer} (h : synthesizer.Sound) (text : String) :
    ∃ function, (synthesizer.literal text).1 = .ok function ∧ function.tree = .literal text ∧
      (synthesizer.literal text).2.Sound := by
  obtain ⟨arena, root, hread, htree⟩ := Script.parseFunction_literal text
  rw [← Script.print_pushLiteralFunction] at hread
  obtain ⟨function, hcompile, hsource, hsound⟩ := compile_spec h hread
  exact ⟨function, hcompile, (RenderFunction.tree_of_read hsource hread).trans htree, hsound⟩

end Synthesizer

/-- The entry of a component that is one literal: its function returns the
    text, and there are no entries below it. -/
structure FoldedTree.IsLiteral (tree : FoldedTree) (component text : String) : Prop where
  component : tree.component = component
  isStatic : tree.isStatic = true
  children : tree.children = []
  function : tree.function.tree = .literal text

/-- A literal function returns its text as markup. -/
theorem Engine.render_literal {engine : Engine} (inst : Instance) {function : RenderFunction}
    {text : String} (hrefuses : engine.refuses function = none)
    (hrender : inst.render = some function) (htree : function.tree = .literal text) :
    engine.render inst = .ok (.fragment text "" []) := by
  unfold render
  rw [hrender]
  dsimp only
  rw [hrefuses, htree]
  rfl

section Html

variable {engine : Engine} {tree : FoldedTree} {component : Component} {text : String}

/-- Entering a component that a tree has as a literal. -/
theorem FoldedTree.IsLiteral.component_eq (h : tree.IsLiteral component.name text)
    (hnone : component.prefetch = []) (hrefuses : engine.refuses tree.function = none)
    (data : NodeData) (context : TagContext) (out : String) (rest : List Serializer.Work)
    (memory : Engine.State) :
    Serializer.component engine tree.plan component data none context ⟨out, rest, [], memory⟩ =
      .ok () ⟨out, .view (.fragment text "" [])
        (some { Instance.create component data none .dynamic with render := some tree.function })
        (context.nest data component.scopeId) :: .leave :: rest, [some tree], memory⟩ := by
  -- The plan knows the component, as it stands at the root.
  have hentry : tree.entry? component data [] = some tree := by
    unfold entry?
    simp only [Option.filter, h.component, beq_self_eq_true, if_true]
  have henter : (Serializer.enter tree.plan component data : Serializer.Walking _ _)
      ⟨out, rest, [], memory⟩ = .ok (some tree.function) ⟨out, rest, [some tree], memory⟩ := by
    change EStateM.Result.ok ((tree.entry? component data []).map FoldedTree.function)
      (⟨out, rest, [tree.entry? component data []], memory⟩ : Serializer.Walk _) = _
    rw [hentry]
    rfl
  have hown : ({ Instance.create component data none .dynamic with
      render := some tree.function <|> (Instance.create component data none .dynamic).render } :
      Instance) =
      { Instance.create component data none .dynamic with render := some tree.function } := rfl
  -- The function of the entry is there, so nothing is compiled.
  have hensure : engine.ensureRender
      { Instance.create component data none .dynamic with render := some tree.function } memory =
      .ok (tree.function,
        { Instance.create component data none .dynamic with render := some tree.function })
        memory := rfl
  have hprefetch : (Engine.prefetch
      { Instance.create component data none .dynamic with render := some tree.function }).value =
      .ok _ := Engine.prefetch_of_nil hnone
  have hrender := Engine.render_literal
    { Instance.create component data none .dynamic with render := some tree.function } hrefuses rfl
    h.function
  simp only [Serializer.component, bind, EStateM.bind, henter, hown,
    Serializer.onEngine, hensure, hprefetch, Serializer.ofExcept, pure, EStateM.pure, hrender]
  rfl

/-- A component that a tree has as a literal is written as its text. -/
theorem FoldedTree.IsLiteral.html {id : ComponentId}
    (h : tree.IsLiteral (engine.components id).name text)
    (hnone : (engine.components id).prefetch = [])
    (hrefuses : engine.refuses tree.function = none) (data : NodeData) (state : Engine.State) :
    engine.html tree.plan (.component id data) [] state = (.ok text, [], state) := by
  have hsteps : Serializer.maxSteps = 1099511627771 + 5 := rfl
  unfold Engine.html
  rw [hsteps, Serializer.work_cons]
  simp only [bind, EStateM.bind, Serializer.perform, Serializer.write,
    h.component_eq hnone hrefuses]
  -- The text, nothing after it, leaving the component and the end take the other steps.
  have hrest (steps : Nat) (owner : Option Instance) (context : TagContext) :
      Serializer.work engine tree.plan (steps + 4)
        ⟨"", [.view (.fragment text "" []) owner context, .leave], [some tree], state⟩ =
      .ok () ⟨"" ++ text ++ "", [], [], state⟩ := rfl
  rw [hrest]
  simp only [String.empty_append, String.append_empty]

end Html

end RenderFold
