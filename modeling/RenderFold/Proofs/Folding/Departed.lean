import RenderFold.Proofs.Folding.Closings
import RenderFold.Proofs.Folding.Lined

/-!
# What Comes of Leaving a Component

A component is left with a literal in the place of its function, with its own
function, or with its rewritten one. Its entry gets the children that were
closed below it, or those of them that stay.

## Main definitions

* `Walk.Departs`: What comes of leaving a component.

## Theorems

* `Builder.close_entered`: An entry that was opened and is closed again.
* `Walk.leaveComponent_departs`: A component that is left comes to one of
  these.
-/

namespace RenderFold

open Script (Arena Id)

namespace Builder

/-- The children of an entry that is open, when some have been closed. -/
theorem foldl_attach (builder : Builder) (opened : OpenEntry) (rest : List OpenEntry)
    (calls : List (Id × FoldedTree)) (hentries : builder.entries = opened :: rest) :
    calls.foldl (fun builder call => builder.attach call.1 call.2) builder =
      { builder with entries := { opened with children := opened.children ++ calls } :: rest } := by
  induction calls generalizing builder opened with
  | nil => rw [List.foldl_nil, List.append_nil, ← hentries]
  | cons call calls ih =>
      have hattach : builder.attach call.1 call.2 = { builder with
          entries := { opened with children := opened.children ++ [call] } :: rest } := by
        rw [attach, hentries]
      rw [List.foldl_cons, hattach, ih _ _ rfl, List.append_assoc, List.singleton_append]

/-- An entry that was opened for a component and is closed again. -/
theorem close_entered (builder : Builder) (component : String) (styles : Styles)
    (calls : List (Id × FoldedTree)) (slot : Id) (function : RenderFunction) (isStatic : Bool)
    (stays : Id → Bool) :
    let entered := calls.foldl (fun builder call => builder.attach call.1 call.2)
      (builder.enter component styles)
    entered.childSlots = calls.map (·.1) ∧ ∃ child,
      entered.close slot function isStatic stays = builder.attach slot child ∧
        child.component = component ∧ child.function = function ∧
        child.children = (calls.filter (stays ·.1)).map (·.2) := by
  dsimp only
  rw [foldl_attach _ _ _ calls rfl]
  exact ⟨rfl, _, rfl, rfl, rfl, settle_children styles calls⟩

end Builder

namespace Walk

/-- What comes of leaving a component. -/
inductive Departs (boundary : Boundary) (walk : Walk) : Walk → Prop where
  /-- The component becomes a literal. -/
  | literal {text : String} {function : RenderFunction} {stays : Id → Bool}
      {synthesizer : Synthesizer}
      (htext : walk.program.findings.literal? boundary.rootSlot = some text)
      (hfunction : function.tree = .literal text) (hsound : synthesizer.Sound) :
      Departs boundary walk
        { walk with
          active := boundary.around
          synthesizer
          program := walk.program.foldToLiteral boundary.slot text
          builder := walk.builder.close boundary.slot function true stays }
  /-- The component keeps its function and its children. -/
  | own {synthesizer : Synthesizer} {arena : Arena}
      (hnone : walk.program.findings.literal? boundary.rootSlot = none)
      (harena : arena = walk.program.arena ∨ ∃ function,
        walk.program.findings.function? boundary.slot = some function ∧
          arena = walk.numbered function)
      (hsound : synthesizer.Sound) :
      Departs boundary walk
        { walk with
          active := boundary.around
          synthesizer
          program := { walk.program with arena }
          builder := walk.builder.close boundary.slot boundary.own false fun _ => true }
  /-- The component gets the rewritten function, and the children that stay. -/
  | rewritten {function : Id} {rewritten : RenderFunction} {synthesizer : Synthesizer}
      (hnone : walk.program.findings.literal? boundary.rootSlot = none)
      (hfunction : walk.program.findings.function? boundary.slot = some function)
      (hmatched : walk.program.findings.isUnmatched function = false)
      (hread : RenderFunction.compile ((walk.numbered function).print function) = .ok rewritten)
      (hsound : synthesizer.Sound) :
      Departs boundary walk
        { walk with
          active := boundary.around
          synthesizer
          program := { walk.program with arena := walk.numbered function }
          builder := walk.builder.close boundary.slot rewritten false
            (Program.counts (Program.survivors walk.program.arena function walk.builder.childSlots)
              !walk.options.hoistStyles) }

variable {engine : Engine} {walk : Walk} {boundary : Boundary}

theorem leaveComponent_departs (hsound : walk.synthesizer.Sound) :
    Leads (leaveComponent engine boundary) walk (fun _ after => Departs boundary walk after)
      fun _ => True := by
  unfold leaveComponent
  rw [leads_bind, leads_modify, leads_bind, leads_get]
  dsimp only
  split
  · next text htext =>
      obtain ⟨function, hread, htree, hsound⟩ := Synthesizer.literal_spec hsound text
      unfold leaveStatic
      rw [leads_bind, leads_onSynthesizer]
      dsimp only
      rw [hread]
      dsimp only
      rw [leads_bind, leads_onProgram, leads_bind, leads_get]
      exact .literal htext htree hsound
  · next hnone =>
      have hkept : Departs boundary walk
          { walk with
            active := boundary.around
            builder := walk.builder.close boundary.slot boundary.own false fun _ => true } :=
        .own hnone (.inl rfl) hsound
      split
      · exact hkept
      · next function hfunction =>
          split
          · exact hkept
          · next hmatched =>
              unfold leaveRewritten
              rw [leads_bind, leads_get]
              dsimp only
              rw [leads_bind, leads_onProgram, leads_bind, leads_get, leads_bind,
                leads_onSynthesizer]
              dsimp only
              have hsynthesized := Synthesizer.synthesize_sound hsound engine
                (walk.numbered function) function boundary.inst
              split
              · next rewritten hrewritten =>
                  exact .rewritten hnone hfunction (Bool.not_eq_true _ ▸ hmatched)
                    (hsynthesized.2 rewritten hrewritten) hsynthesized.1
              · exact .own hnone (.inr ⟨function, hfunction, rfl⟩) hsynthesized.1

end Walk

end RenderFold
