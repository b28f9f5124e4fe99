import RenderFold.Proofs.Folding.Leads
import RenderFold.Proofs.Folding.Standing

/-!
# Closing Frames

What closing a frame leads to. The node of the frame becomes static if all of
its children are and the markup around them is known. Otherwise it is
rewritten at most, and nothing more is found out. Either way the walk is idle
afterwards, also if a component cannot be left.

## Theorems

* `Program.foldLevel_cases`, `Program.foldGroup_cases`: What folding a level
  finds out.
* `Walk.finish_leads`: Closing a frame.
-/

namespace RenderFold

open Script (Arena Id)
open Script.Arena (Closed added)

namespace Program

variable {program : Program} {slot : Id}

/-- Folding a level makes the node static, or finds nothing out. -/
theorem foldLevel_cases (hstatic : program.findings.isStatic slot = false) (closing : String)
    (slots : List Id) :
    (∃ opening content, program.findings.text? slot = some opening ∧
        Run.literal? (program.findings.runs slots) = some content ∧
        program.foldLevel slot closing slots =
          program.foldToLiteral slot (opening ++ content ++ closing)) ∨
      (program.foldLevel slot closing slots).findings = program.findings := by
  unfold foldLevel
  rw [if_neg (by rw [hstatic]; exact Bool.false_ne_true)]
  dsimp only
  split
  · next opening content hopening hcontent =>
      exact Or.inl ⟨opening, content, hopening, hcontent, rfl⟩
  · refine Or.inr ?_
    split
    · rfl
    · split <;> rfl

theorem foldGroup_cases (hstatic : program.findings.isStatic slot = false) (slots : List Id) :
    (∃ text, Run.literal? (program.findings.runs slots) = some text ∧
        program.foldGroup slot slots = program.foldToLiteral slot text) ∨
      program.foldGroup slot slots = program := by
  unfold foldGroup
  rw [if_neg (by rw [hstatic]; exact Bool.false_ne_true)]
  split
  · next text htext => exact Or.inl ⟨text, htext, rfl⟩
  · exact Or.inr rfl

/-- A single child is all of the runs. -/
theorem literal?_runs_singleton (findings : Findings) (slot : Id) :
    Run.literal? (findings.runs [slot]) = findings.literal? slot := by
  simp only [Findings.runs]
  cases findings.literal? slot with
  | none => rfl
  | some text => simp only [Run.prependLiteral, Run.literal?]

/-- A group that holds nothing but its own expression finds nothing out. -/
theorem foldGroup_self (slot : Id) : program.foldGroup slot [slot] = program := by
  unfold foldGroup
  split
  · rfl
  · next hstatic =>
      rw [literal?_runs_singleton, Findings.literal?_eq_none (Bool.not_eq_true _ ▸ hstatic)]

end Program

namespace Walk

variable {engine : Engine} {functions : Component → Option RenderFunction} {comments : Bool}
  {events : List Event} {walk : Walk} {zone : Set Id} {slot : Id} {known : Option String}
  {goal : List Settled → String → Prop}

/-- Rewriting in the zone finds nothing out. -/
theorem Busy.rewrite (h : Busy engine functions comments events walk zone slot known goal)
    (program : Program) (harena : Arena.EditedIn zone walk.program.arena program.arena)
    (hfindings : program.findings = walk.program.findings) :
    Idle engine functions comments events { walk with program } :=
  (h.edit ⟨harena, fun _ _ _ => by rw [hfindings]⟩ (by rw [hfindings]; exact .refl _)).drop

/-- The goal is met, and the expression becomes a literal. -/
theorem Busy.foldToLiteral {text : String}
    (h : Busy engine functions comments events walk zone slot known goal) (hgoal : goal [] text) :
    Idle engine functions comments events
      { walk with program := walk.program.foldToLiteral slot text } :=
  h.mark hgoal (Script.Arena.becomeLiteral_editedIn h.closed h.slot_mem text)

theorem leaveStatic_leads {boundary : Boundary} {text : String}
    (h : Busy engine functions comments events walk zone boundary.slot known goal)
    (hgoal : goal [] text) :
    Leads (leaveStatic boundary text) walk
      (fun _ after => Idle engine functions comments events after)
      (Idle engine functions comments events) := by
  unfold leaveStatic
  rw [leads_bind, leads_onSynthesizer]
  split
  · exact h.drop.of_eq rfl rfl rfl rfl rfl
  · rw [leads_bind, leads_onProgram, leads_bind, leads_get]
    exact (h.foldToLiteral hgoal).of_eq rfl rfl rfl rfl rfl

/-- Numbering calls and reading the function again finds nothing out. -/
theorem leaveRewritten_leads {boundary : Boundary} {function : Id}
    (h : Busy engine functions comments events walk zone boundary.slot known goal)
    (hfunction : function ∈ zone) :
    Leads (leaveRewritten engine boundary function) walk
      (fun _ after => Idle engine functions comments events after)
      (Idle engine functions comments events) := by
  unfold leaveRewritten
  rw [leads_bind, leads_get]
  dsimp only
  rw [leads_bind, leads_onProgram, leads_bind, leads_get, leads_bind, leads_onSynthesizer]
  -- The calls below the function are in the zone, and numbering edits only those.
  have hidle := h.rewrite ⟨_, walk.program.findings⟩
    (Program.placeAll_editedIn walk.builder.childSlots (!walk.options.hoistStyles) 0 h.closed
      (Program.survivors_mem walk.builder.childSlots h.closed hfunction)) rfl
  split
  · exact hidle.of_eq rfl rfl rfl rfl rfl
  · exact hidle.of_eq rfl rfl rfl rfl rfl

/-- Leaving a component. It is a literal if its root is. -/
theorem leaveComponent_leads {boundary : Boundary}
    (h : Busy engine functions comments events { walk with active := boundary.around } zone
      boundary.slot known goal)
    (hgoal : ∀ text, walk.program.findings.literal? boundary.rootSlot = some text → goal [] text)
    (hfunction : ∀ function,
      walk.program.findings.function? boundary.slot = some function → function ∈ zone) :
    Leads (leaveComponent engine boundary) walk
      (fun _ after => Idle engine functions comments events after)
      (Idle engine functions comments events) := by
  unfold leaveComponent
  rw [leads_bind, leads_modify, leads_bind, leads_get]
  dsimp only
  split
  · next text htext => exact leaveStatic_leads h (hgoal text htext)
  · split
    · exact h.drop.of_eq rfl rfl rfl rfl rfl
    · next function hfound =>
        split
        · exact h.drop.of_eq rfl rfl rfl rfl rfl
        · exact leaveRewritten_leads h (hfunction function hfound)

/-- Closing a frame leaves the walk idle. -/
theorem finish_leads {frame : Frame} {rest : List Frame}
    (h : Idle engine functions comments events walk) (hframes : walk.frames = frame :: rest)
    (hnext : frame.pairs.next? = none) :
    Leads (finish engine frame) { walk with frames := rest }
      (fun _ after => Idle engine functions comments events after)
      (Idle engine functions comments events) := by
  rcases h.finish hframes hnext with ⟨rfl, slot, pairs, rfl, hslots⟩ |
    ⟨zone, hbusy, hslots, hcomponent⟩
  · -- The outermost frame has the root as its only child, at its own expression.
    rw [finish, leads_onProgram]
    dsimp only
    rw [hslots, Program.foldGroup_self]
    exact ⟨⟨∅, .ended⟩, h.recorded, h.used_lt, h.functions, h.comments⟩
  · cases frame with
    | element slot closing pairs =>
        rw [finish, leads_onProgram]
        -- Whatever is rewritten is in the zone of the frame. Only if all runs are
        -- literals is something found out.
        have harena := Program.foldLevel_editedIn hbusy.closed hbusy.slot_mem hslots closing
        rcases Program.foldLevel_cases hbusy.not_static closing pairs.slots with
          ⟨opening, content, hopening, hcontent, hfold⟩ | hsame
        · have hidle := hbusy.foldToLiteral ⟨rfl, opening, content, hopening, hcontent, rfl⟩
          exact hidle.of_eq hfold rfl rfl rfl rfl
        · exact hbusy.rewrite _ harena hsame
    | group slot pairs =>
        rw [finish, leads_onProgram]
        rcases Program.foldGroup_cases hbusy.not_static pairs.slots with
          ⟨text, htext, hfold⟩ | hsame
        · have hidle := hbusy.foldToLiteral ⟨rfl, "", text, rfl, htext, rfl⟩
          simp only [Frame.closing, String.empty_append, String.append_empty] at hidle
          exact hidle.of_eq hfold rfl rfl rfl rfl
        · exact hbusy.drop.of_eq hsame rfl rfl rfl rfl
    | component boundary pairs =>
        -- A component has its root as its only child, so it is what the root is.
        obtain ⟨hroot, hfunction⟩ := hcomponent boundary pairs rfl
        refine leaveComponent_leads hbusy (fun text htext => ?_) hfunction
        rw [← Program.literal?_runs_singleton, ← hroot] at htext
        exact ⟨rfl, "", text, rfl, htext, by simp [Frame.closing]⟩

end Walk

end RenderFold
