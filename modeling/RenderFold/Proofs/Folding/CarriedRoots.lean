import RenderFold.Proofs.Folding.CarriedPairs
import RenderFold.Proofs.Script.Copies

/-!
# Entering a Component

When a component is entered, its function is copied into the program and the
root of the copy is located, or there is a new expression for it. All of that is
new, so what is below the root can be treated without touching anything that was
there before.

## Main definitions

* `Program.copy`: A program with a copy of a function.
* `Walk.copied`, `Walk.located`: The copy, and its root.

## Theorems

* `Walk.Fit.entered`: The root of a component can be treated next.
* `Walk.Fit.inside_works`: What is done below it leaves the rest as it was.
-/

namespace RenderFold

open Script (Arena Id)
open Script.Arena (Beneath Extends Forest added)

/-- A program with a copy of the function of a component, recorded for the
    expression that uses the component. -/
def Program.copy (program : Program) (slot : Id) (own : RenderFunction) : Program :=
  ⟨(program.arena.graft own.arena own.root).2,
    program.findings.setFunction slot (program.arena.graft own.arena own.root).1⟩

namespace Program

variable {program : Program} {slot function : Id} {own : RenderFunction} {zone : Set Id}

/-- The copy is a tree of new nodes. -/
theorem copy_grown (program : Program) (slot : Id) (own : RenderFunction) :
    Script.Arena.Grown program.arena.size (program.copy slot own).arena
      [(program.arena.graft own.arena own.root).1] := by
  obtain ⟨span, hspan, hnodup⟩ := own.isTree
  exact Script.Arena.graft_grown program.arena hspan hnodup

theorem copy_tree (program : Program) (slot : Id) (own : RenderFunction) :
    (program.copy slot own).arena.tree (program.arena.graft own.arena own.root).1 = own.tree := by
  obtain ⟨span, hspan, hnodup⟩ := own.isTree
  have hforest : Forest Set.univ own.arena [own.root] := ⟨span, hspan, hnodup, fun _ _ => trivial⟩
  exact (Script.Arena.graft_copies (hforest.isTree List.mem_cons_self).grounded
    program.arena).2.2.1

/-- The expression that a function returns is located below the function, or
    there is a new one for it. -/
theorem locateRoot_grown {start : Nat} (h : Script.Arena.Grown start program.arena [function])
    (hsize : start ≤ program.arena.size) :
    Script.Arena.Grown start (program.locateRoot function).2.arena
      [(program.locateRoot function).1] := by
  unfold locateRoot
  split
  · next found hfound =>
      obtain ⟨span, hspan, hnodup, hle⟩ := h
      obtain ⟨inner, hinner, hsub⟩ := Script.Arena.singleReturn?_spans hspan hfound
      exact ⟨inner, hinner, hnodup.sublist hsub, fun x hx => hle x (hsub.subset hx)⟩
  · obtain ⟨span, hspan, hnodup, hle⟩ := (pushHole_adds (program.markUnmatched function)).grown
    exact ⟨span, hspan, hnodup, fun x hx => hsize.trans (hle x hx)⟩

/-- A function whose root cannot be located is known not to match. -/
theorem locateRoot_cases (program : Program) (function : Id) :
    (∃ found, program.arena.singleReturn? function = some found ∧
      program.locateRoot function = (found, program)) ∨
    (program.locateRoot function).2.findings.isUnmatched function = true := by
  unfold locateRoot
  split
  · next found hfound => exact .inl ⟨found, hfound, rfl⟩
  · exact .inr Findings.isUnmatched_markUnmatched_self

/-- Locating a root finds nothing out about anything else. -/
theorem locateRoot_get? {x : Id} (hne : x ≠ function) :
    (program.locateRoot function).2.findings.get? x = program.findings.get? x := by
  unfold locateRoot
  split
  · rfl
  · rw [(pushHole_adds _).findings]
    exact Findings.get?_update_of_ne _ _ hne

end Program

namespace Walk

variable {engine : Engine} {functions : Component → Option RenderFunction}
  {cached : FactoryId → Option Resolution} {root : View} {pair : Pair} {walk middle : Walk}
  {own : RenderFunction} {x : Id}

/-- The copy of the function of a component. -/
def copied (walk : Walk) (own : RenderFunction) : Id :=
  (walk.program.arena.graft own.arena own.root).1

/-- The copy with its root located. -/
def located (walk : Walk) (slot : Id) (own : RenderFunction) : Id × Program :=
  (walk.program.copy slot own).locateRoot (walk.copied own)

theorem copied_mem (walk : Walk) (slot : Id) (own : RenderFunction) :
    walk.copied own ∈ added walk.program.arena (walk.program.copy slot own).arena := by
  obtain ⟨span, hspan, -, hle⟩ := walk.program.copy_grown slot own
  have hmem : walk.copied own ∈ span := hspan.subset List.mem_cons_self
  exact ⟨hle _ hmem, hspan.lt_size _ hmem⟩

/-- Everything below the root is new. -/
theorem located_new (walk : Walk) (slot : Id) (own : RenderFunction)
    (hx : x ∈ (walk.located slot own).2.arena.Beneath [(walk.located slot own).1]) :
    x ∈ added walk.program.arena (walk.located slot own).2.arena := by
  obtain ⟨span, hspan, -, hle⟩ := Program.locateRoot_grown (walk.program.copy_grown slot own)
    (Script.Arena.graft_extends _ _ _).1
  obtain ⟨_, hid, path, hpath⟩ := hx
  have hmem := hspan.path_mem (hspan.subset hid) hpath
  exact ⟨hle x hmem, hspan.lt_size x hmem⟩

theorem Fit.located_works (h : Fit engine functions cached root [pair] walk)
    (own : RenderFunction) :
    Program.Works (walk.program.arena.Beneath [pair.slot]) walk.program
      (walk.located pair.slot own).2 := by
  have hcopy := Program.graft_works h.forest.beneath_closed
    (Script.Arena.mem_beneath List.mem_cons_self) own
  exact hcopy.trans (Program.locateRoot_works hcopy.arena.closed
    (Or.inr (walk.copied_mem pair.slot own)))

/-- What was there before the function was copied is still there. -/
theorem located_extends (walk : Walk) (slot : Id) (own : RenderFunction) :
    Extends walk.program.arena (walk.located slot own).2.arena := by
  have hgraft := Script.Arena.graft_extends walk.program.arena own.arena own.root
  unfold located Program.locateRoot
  split
  · exact hgraft
  · exact hgraft.trans (Program.pushHole_adds
      ((walk.program.copy slot own).markUnmatched (walk.copied own))).keeps

/-- All that is known about the expression of a component that was entered is its
    function. -/
theorem Fit.located_function (h : Fit engine functions cached root [pair] walk)
    (own : RenderFunction) :
    (walk.located pair.slot own).2.findings.function? pair.slot = some (walk.copied own) ∧
      (walk.located pair.slot own).2.findings.isStatic pair.slot = false := by
  have hlt := (h.forest.mem List.mem_cons_self).2
  have hne : pair.slot ≠ walk.copied own := fun heq =>
    Nat.not_lt_of_le (walk.copied_mem pair.slot own).1 (heq ▸ hlt)
  rw [Findings.function?, Findings.isStatic, located, Program.locateRoot_get? hne, Program.copy,
    Findings.setFunction, Findings.get?_update_self, h.unknown]
  exact ⟨rfl, rfl⟩

/-- Nothing is known about what is below the root. -/
theorem Fit.located_fresh (h : Fit engine functions cached root [pair] walk)
    (hx : x ∈ (walk.located pair.slot own).2.arena.Beneath [(walk.located pair.slot own).1]) :
    (walk.located pair.slot own).2.findings.get? x = none := by
  have hle := (walk.located_new pair.slot own hx).1
  have hslot : x ≠ pair.slot := fun heq =>
    Nat.not_lt_of_le hle (heq ▸ (h.forest.mem List.mem_cons_self).2)
  have hcopy : (walk.program.copy pair.slot own).findings.get? x = none :=
    (Findings.get?_update_of_ne _ _ hslot).trans (h.planted.bounded.get?_eq_none hle)
  unfold located Program.locateRoot at hx ⊢
  split at hx
  · exact hcopy
  · -- The root is a hole after the copy, so it is not the copy itself.
    obtain ⟨span, hspan, -, hnew⟩ := (Program.pushHole_adds
      ((walk.program.copy pair.slot own).markUnmatched (walk.copied own))).grown
    obtain ⟨_, hid, path, hpath⟩ := hx
    have hne : x ≠ walk.copied own := fun heq => Nat.not_lt_of_le
      (hnew x (hspan.path_mem (hspan.subset hid) hpath))
      (heq ▸ (walk.copied_mem pair.slot own).2)
    exact (Findings.get?_update_of_ne _ _ hne).trans hcopy

/-- The root of a component can be treated next. -/
theorem Fit.entered (h : Fit engine functions cached root [pair] walk)
    {use : ComponentId} {data : NodeData}
    {instances : Twin Instance} {roots : Twin View} {context : Twin TagContext}
    (hview : pair.view.dynamic = .component use data)
    (hrender : engine.rendering? functions .dynamic (walk.active.map (·.dynamic))
      (engine.components use) data = some (instances.dynamic, roots.dynamic))
    {state : Engine.State} (hstate : engine.function? state = functions) (builder : Builder)
    (frames : List Frame) :
    Fit engine functions cached root [⟨roots, (walk.located pair.slot own).1, context⟩]
      { walk with
        program := (walk.located pair.slot own).2
        frames
        active := some instances
        builder
        engine := state } := by
  refine ⟨(h.located_works own).planted h.planted, ?_, fun x hx => h.located_fresh hx, ?_, hstate,
    h.sound⟩
  · obtain ⟨span, hspan, hnodup, -⟩ := Program.locateRoot_grown
      (walk.program.copy_grown pair.slot own) (Script.Arena.graft_extends _ _ _).1
    exact ⟨span, hspan, hnodup, fun _ _ => trivial⟩
  · refine List.forall_mem_singleton.mpr (.component (h := ?_) hrender)
    exact hview ▸ h.below pair List.mem_cons_self

section Inside

variable {roots : Twin View} {context : Twin TagContext} {opened : Walk}
  {calls : List (Id × FoldedTree)}

/-- What was done below the root of a component was done to new nodes. -/
theorem Fit.inside_works (h : Fit engine functions cached root [pair] walk)
    (hopened : opened.program = (walk.located pair.slot own).2)
    (hinner : Carries engine functions cached [⟨roots, (walk.located pair.slot own).1, context⟩]
      opened calls middle) :
    Program.Works (walk.program.arena.Beneath [pair.slot]) walk.program middle.program ∧
      (∀ x ∈ opened.program.arena.Beneath [(walk.located pair.slot own).1] ∪
          added opened.program.arena middle.program.arena, walk.program.arena.size ≤ x) ∧
      Extends walk.program.arena middle.program.arena ∧
      middle.program.findings.function? pair.slot = some (walk.copied own) ∧
      middle.program.findings.isStatic pair.slot = false := by
  have hworks := hinner.works
  simp only [List.map_cons, List.map_nil] at hworks
  rw [hopened] at hworks ⊢
  have hlocated := h.located_works own
  have hlt := (h.forest.mem List.mem_cons_self).2
  have hext := walk.located_extends pair.slot own
  have hnew : ∀ x ∈ (walk.located pair.slot own).2.arena.Beneath [(walk.located pair.slot own).1],
      x ∈ added walk.program.arena (walk.located pair.slot own).2.arena := fun x hx =>
    walk.located_new pair.slot own hx
  have hinside := hworks.widen (fun x hx => Or.inr (hnew x hx)) hlocated.arena.closed
  have hsame : middle.program.findings.get? pair.slot =
      (walk.located pair.slot own).2.findings.get? pair.slot :=
    hworks.findings _ (hlt.trans_le hext.1) fun hin => Nat.not_lt_of_le (hnew _ hin).1 hlt
  obtain ⟨hfunction, hstatic⟩ := h.located_function own
  rw [Findings.function?, ← hsame] at hfunction
  rw [Findings.isStatic, ← hsame] at hstatic
  exact ⟨hlocated.trans hinside, fun x hx => hx.elim (fun hin => (hnew x hin).1) fun hadded =>
    hext.1.trans hadded.1, ⟨hext.1.trans hworks.arena.size_le, fun x hx =>
      (hworks.arena.same x (hx.trans_le hext.1) fun hin => Nat.not_lt_of_le (hnew x hin).1 hx).trans
        (hext.2 x hx)⟩, hfunction, hstatic⟩

end Inside

end Walk

end RenderFold
