import Mathlib.Data.List.SplitBy
import RenderFold.Proofs.Folding.LevelZones

/-!
# Blocks of Static Children

What the runs of a list of children say about the children. The children fall
into blocks: static children that stand side by side are in one block, which
is as long as possible, and any other child is a block by itself. There is one
run for each block, so no child is left out and none changes places. A block
whose markup is empty keeps its run too.

`Findings.runs` looks at the last child first. Whoever goes through the
children from the first one on, and adds the markup of a static child to the
literal that was put down last, gets the same runs, which is what
`Findings.foldl_gather` says. Both come down to how runs are put side by side:
only the literals at the seam are touched.

## Main definitions

* `Run.join`: Runs side by side, with the literals at the seam put together.
* `Run.gatherLiteral`, `Findings.gather`: The runs after one more child.
* `Findings.blocks`: The blocks that children fall into.
* `Run.Covers`: The block that a run stands for.

## Theorems

* `Findings.runs_append`: The runs of children side by side.
* `Findings.foldl_gather`: The runs, gathered from the first child on.
* `Findings.runs_covers`: There is one run for each block.
* `Findings.runs_lossless`: All that the runs keep of the children.
-/

namespace RenderFold

open Script (Id)

namespace Run

/-- Whether a run is a literal. -/
def isLiteral : Run → Bool
  | literal _ => true
  | child _ => false

/-- Runs side by side. A literal at the end of the first and one at the start
    of the others become one. -/
def join : List Run → List Run → List Run
  | [literal text], literal later :: rest => literal (text ++ later) :: rest
  | [], later => later
  | run :: rest, later => run :: join rest later

/-- Add markup after runs. It goes into the literal that comes last, if there
    is one. -/
def gatherLiteral (runs : List Run) (text : String) : List Run :=
  match runs.getLast? with
  | some (literal last) => runs.dropLast ++ [literal (last ++ text)]
  | _ => runs ++ [literal text]

/-- A run stands for a block of children: a literal for static children whose
    markup it is, put together in their order, and a child for itself. -/
inductive Covers (findings : Findings) : Run → List Id → Prop
  | literal {block : List Id} (hne : block ≠ [])
      (hstatic : ∀ slot ∈ block, (findings.literal? slot).isSome = true) :
      Covers findings (literal (String.join (block.filterMap findings.literal?))) block
  | child {slot : Id} (hchild : findings.literal? slot = none) :
      Covers findings (child slot) [slot]

variable {text : String} {slot : Id} {run : Run} {runs later : List Run}

theorem join_cons (h : runs ≠ []) : join (run :: runs) later = run :: join runs later := by
  cases runs with
  | nil => exact absurd rfl h
  | cons next rest => cases run <;> rfl

theorem join_literal : join [literal text] later = prependLiteral text later := by
  rcases later with _ | ⟨_ | _, rest⟩ <;> rfl

/-- A literal before runs that others follow. -/
theorem join_prependLiteral :
    join (prependLiteral text runs) later = prependLiteral text (join runs later) := by
  rcases runs with _ | ⟨first | slot, _ | ⟨next, rest⟩⟩
  · exact join_literal
  · -- The literal in the middle is at both seams.
    change join [literal (text ++ first)] later = prependLiteral text (join [literal first] later)
    rcases later with _ | ⟨_ | _, rest⟩
    · rfl
    · exact congrArg (literal · :: rest) String.append_assoc
    · rfl
  · have hne : next :: rest ≠ [] := List.cons_ne_nil _ _
    rw [join_cons hne]
    exact join_cons hne
  · rfl
  · rfl

theorem join_gatherLiteral (runs : List Run) (text : String) :
    join runs [literal text] = gatherLiteral runs text := by
  induction runs with
  | nil => rfl
  | cons run rest ih =>
      cases rest with
      | nil => cases run <;> rfl
      | cons next rest =>
          have hlast : gatherLiteral (run :: next :: rest) text =
              run :: gatherLiteral (next :: rest) text := by
            unfold gatherLiteral
            rw [List.getLast?_cons_cons, List.dropLast_cons_cons]
            split <;> rfl
          rw [join_cons (List.cons_ne_nil _ _), ih, hlast]

theorem join_single_child (runs : List Run) (slot : Id) :
    join runs [child slot] = runs ++ [child slot] := by
  induction runs with
  | nil => rfl
  | cons run rest ih =>
      cases rest with
      | nil => cases run <;> rfl
      | cons next rest =>
          rw [join_cons (List.cons_ne_nil _ _), ih]
          rfl

variable {findings : Findings} {block : List Id}

/-- A static child before static children. -/
theorem Covers.cons (htext : findings.literal? slot = some text)
    (hstatic : ∀ slot ∈ block, (findings.literal? slot).isSome = true) :
    Covers findings (.literal (text ++ String.join (block.filterMap findings.literal?)))
      (slot :: block) := by
  have hself : (findings.literal? slot).isSome = true := by
    rw [htext]
    rfl
  have hcovers := Covers.literal (List.cons_ne_nil slot block)
    (List.forall_mem_cons.mpr ⟨hself, hstatic⟩)
  rwa [List.filterMap_cons_some htext, String.join_cons] at hcovers

/-- A static child by itself. -/
theorem Covers.alone (htext : findings.literal? slot = some text) :
    Covers findings (.literal text) [slot] := by
  have hcovers := Covers.cons htext (List.forall_mem_nil _)
  rwa [List.filterMap_nil, String.join_nil, String.append_empty] at hcovers

theorem Covers.ne_nil (h : Covers findings run block) : block ≠ [] := by
  cases h with
  | literal hne _ => exact hne
  | child _ => exact List.cons_ne_nil _ _

/-- The children of a block are static if the run is a literal, and only
    then. -/
theorem Covers.isSome_eq (h : Covers findings run block) (hslot : slot ∈ block) :
    (findings.literal? slot).isSome = run.isLiteral := by
  cases h with
  | literal _ hstatic => exact hstatic slot hslot
  | child hchild =>
      rw [List.mem_singleton.mp hslot, hchild]
      rfl

end Run

namespace Findings

open Run (Covers isLiteral)

/-- The runs after one more child. -/
def gather (findings : Findings) (runs : List Run) (slot : Id) : List Run :=
  match findings.literal? slot with
  | some text => Run.gatherLiteral runs text
  | none => runs ++ [.child slot]

/-- The blocks that children fall into. Neighbours are in one block if both
    are static. -/
def blocks (findings : Findings) (slots : List Id) : List (List Id) :=
  slots.splitBy fun slot next =>
    (findings.literal? slot).isSome && (findings.literal? next).isSome

variable {findings : Findings}

theorem runs_append (findings : Findings) (slots later : List Id) :
    findings.runs (slots ++ later) = Run.join (findings.runs slots) (findings.runs later) := by
  induction slots with
  | nil => rfl
  | cons slot slots ih =>
      rw [List.cons_append]
      cases htext : findings.literal? slot with
      | some text =>
          rw [runs_cons_of_some htext, runs_cons_of_some htext, ih, Run.join_prependLiteral]
      | none =>
          rw [runs_cons_of_none htext, runs_cons_of_none htext, ih]
          cases hruns : findings.runs slots with
          | nil => rfl
          | cons run rest => exact (Run.join_cons (List.cons_ne_nil _ _)).symm

/-- One more child at the end changes the last run at most. -/
theorem runs_concat (findings : Findings) (slots : List Id) (slot : Id) :
    findings.runs (slots ++ [slot]) = findings.gather (findings.runs slots) slot := by
  rw [runs_append, gather]
  cases htext : findings.literal? slot with
  | some text =>
      rw [runs_cons_of_some htext]
      exact Run.join_gatherLiteral _ _
  | none =>
      rw [runs_cons_of_none htext]
      exact Run.join_single_child _ _

/-- Gathering the runs from the first child on gives the same runs. -/
theorem foldl_gather (findings : Findings) (slots : List Id) :
    slots.foldl findings.gather [] = findings.runs slots := by
  induction slots using List.reverseRecOn with
  | nil => rfl
  | append_singleton slots slot ih =>
      rw [List.foldl_append, ih, List.foldl_cons, List.foldl_nil, runs_concat]

/-- No two literals stand side by side. -/
theorem runs_alternate (findings : Findings) (slots : List Id) :
    (findings.runs slots).IsChain
      fun run next => ¬ (run.isLiteral = true ∧ next.isLiteral = true) := by
  induction slots with
  | nil => exact .nil
  | cons slot slots ih =>
      cases htext : findings.literal? slot with
      | none =>
          rw [runs_cons_of_none htext, List.isChain_cons]
          exact ⟨fun next _ h => Bool.false_ne_true h.1, ih⟩
      | some text =>
          rw [runs_cons_of_some htext]
          cases hruns : findings.runs slots with
          | nil => exact .singleton _
          | cons run rest =>
              rw [hruns] at ih
              cases run with
              | literal later =>
                  -- The literal that comes first is only longer now.
                  rw [List.isChain_cons] at ih
                  exact List.isChain_cons.mpr ih
              | child slot =>
                  exact List.isChain_cons_cons.mpr ⟨fun h => Bool.false_ne_true h.2, ih⟩

/-- Children can be cut up so that each run stands for one of the parts. -/
theorem exists_covers (findings : Findings) (slots : List Id) :
    ∃ parts : List (List Id), parts.flatten = slots ∧
      List.Forall₂ (Covers findings) (findings.runs slots) parts := by
  induction slots with
  | nil => exact ⟨[], rfl, .nil⟩
  | cons slot slots ih =>
      obtain ⟨parts, hparts, hcovers⟩ := ih
      cases htext : findings.literal? slot with
      | none =>
          rw [runs_cons_of_none htext]
          exact ⟨[slot] :: parts, congrArg (slot :: ·) hparts, .cons (.child htext) hcovers⟩
      | some text =>
          rw [runs_cons_of_some htext]
          -- The child joins the first part if that one is static, and is a part by itself if not.
          generalize findings.runs slots = runs at hcovers
          cases hcovers with
          | nil => exact ⟨[[slot]], congrArg (slot :: ·) hparts, .cons (.alone htext) .nil⟩
          | @cons _ part _ parts hfirst hrest =>
              cases hfirst with
              | @child next hchild =>
                  exact ⟨[slot] :: [next] :: parts, congrArg (slot :: ·) hparts,
                    .cons (.alone htext) (.cons (.child hchild) hrest)⟩
              | literal hne hstatic =>
                  exact ⟨(slot :: part) :: parts, congrArg (slot :: ·) hparts,
                    .cons (.cons htext hstatic) hrest⟩

/-- Parts that runs stand for cannot be put together further. -/
theorem isChain_of_covers {runs : List Run} {parts : List (List Id)}
    (hcovers : List.Forall₂ (Covers findings) runs parts)
    (hruns : runs.IsChain fun run next => ¬ (run.isLiteral = true ∧ next.isLiteral = true)) :
    parts.IsChain fun part next => ∃ hpart hnext,
      ((findings.literal? (part.getLast hpart)).isSome &&
        (findings.literal? (next.head hnext)).isSome) = false := by
  induction hcovers with
  | nil => exact .nil
  | cons hfirst hrest ih =>
      cases hrest with
      | nil => exact .singleton _
      | cons hnext hlater =>
          obtain ⟨hdiffer, hruns⟩ := List.isChain_cons_cons.mp hruns
          refine List.isChain_cons_cons.mpr ⟨⟨hfirst.ne_nil, hnext.ne_nil, ?_⟩, ih hruns⟩
          rw [hfirst.isSome_eq (List.getLast_mem _), hnext.isSome_eq (List.head_mem _)]
          exact Bool.eq_false_iff.mpr fun h => hdiffer (Bool.and_eq_true_iff.mp h)

/-- There is one run for each block, and it stands for that block. -/
theorem runs_covers (findings : Findings) (slots : List Id) :
    List.Forall₂ (Covers findings) (findings.runs slots) (findings.blocks slots) := by
  obtain ⟨parts, hparts, hcovers⟩ := exists_covers findings slots
  have hcovered : ∀ part ∈ parts, ∃ run, Covers findings run part :=
    ((List.forall₂_and_left _ _).mp (hcovers.flip.imp fun part run h => ⟨⟨run, h⟩, h⟩)).1
  have hblocks : findings.blocks slots = parts := by
    refine List.splitBy_eq_iff.mpr ⟨hparts.symm, fun hnil => ?_, fun part hpart => ?_,
      isChain_of_covers hcovers (runs_alternate findings slots)⟩
    · obtain ⟨run, hrun⟩ := hcovered [] hnil
      exact hrun.ne_nil rfl
    · obtain ⟨run, hrun⟩ := hcovered part hpart
      cases hrun with
      | literal _ hstatic =>
          refine (List.pairwise_of_forall_mem_list fun slot hslot next hnext => ?_).isChain
          rw [hstatic slot hslot, hstatic next hnext]
          rfl
      | child _ => exact .singleton _
  rwa [hblocks]

/-- What the runs of children keep. They are the same whichever end one begins
    at. The children that are not static stay, in their order; there is one
    run for each block, and no two literals stand side by side. The runs of
    children side by side are their runs side by side, with the literals at
    the seam put together, and children amount to one literal exactly if all
    of them are static: to the markup of all of them. -/
theorem runs_lossless (findings : Findings) (slots : List Id) :
    slots.foldl findings.gather [] = findings.runs slots ∧
    Program.runSlots (findings.runs slots) =
      slots.filter (fun slot => (findings.literal? slot).isNone) ∧
    List.Forall₂ (Covers findings) (findings.runs slots) (findings.blocks slots) ∧
    (findings.runs slots).IsChain
      (fun run next => ¬ (run.isLiteral = true ∧ next.isLiteral = true)) ∧
    (∀ later, findings.runs (slots ++ later) =
      Run.join (findings.runs slots) (findings.runs later)) ∧
    ∀ text, Run.literal? (findings.runs slots) = some text ↔
      (∀ slot ∈ slots, (findings.literal? slot).isSome = true) ∧
        text = String.join (slots.filterMap findings.literal?) :=
  ⟨foldl_gather findings slots, Program.runSlots_runs_eq findings slots, runs_covers findings slots,
    runs_alternate findings slots, runs_append findings slots, fun _ => literal?_runs_iff⟩

end Findings

end RenderFold
