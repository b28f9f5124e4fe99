import RenderFold.Proofs.Folding.LevelZones
import RenderFold.Proofs.Script.Forests

/-!
# What Folding Leaves Standing

Folding the level of a node moves expressions about: the children of an
element become those of the markup that takes its place, a text is taken out
of the call around it, and literals are added. Every forest is one
afterwards, if the children stand in the list of children of the element as
they were found, or the element is left as it is.

## Main definitions

* `Program.Matches`: The children of an element are in its list of children.

## Theorems

* `Program.foldLevel_keepsForests`, `Program.foldGroup_keepsForests`: Folding
  a level.
* `Program.placeAll_keepsForests`: Numbering calls.
-/

namespace RenderFold

namespace Program

open Script (Arena Id)
open Script.Arena (Forest KeepsForests Plot SameParts)

variable {arena a b : Arena} {program : Program} {zone : Set Id} {slot : Id} {slots ids : List Id}

/-- The children of a call are the elements of its list of children, or it is
    known that they could not be matched. -/
def Matches (program : Program) (slot : Id) (slots : List Id) : Prop :=
  program.findings.isUnmatched slot = true ∨
    ∃ array, program.arena.childArray? slot = some array ∧
      program.arena.elements? array = some slots

theorem runSlots_runs_sublist (findings : Findings) (slots : List Id) :
    (runSlots (findings.runs slots)).Sublist slots := by
  rw [runSlots_runs_eq]
  exact List.filter_sublist

theorem pushLiteral_sameParts (arena : Arena) (text : String) :
    SameParts arena (arena.pushLiteral text).2 :=
  ((SameParts.push arena _).trans (.push _ _)).trans (.push _ _)

theorem pushLiteral_forest (hzone : ∀ x, arena.size ≤ x → x ∈ zone) (h : Forest zone arena ids)
    (text : String) :
    Forest zone (arena.pushLiteral text).2 ((arena.pushLiteral text).1 :: ids) := by
  have h₁ := SameParts.push arena (.str text)
  have h₂ := h₁.trans (.push _ (.ident Helper.markup.name))
  have htext := h.pushLeaf (.str text) (hzone _ (Nat.le_refl _)) rfl
  have hcallee := htext.pushLeaf (.ident Helper.markup.name) (hzone _ h₁.1) rfl
  exact Forest.push (.call _ [_]) hcallee (hzone _ h₂.1)

theorem pushRuns_sameParts (runs : List Run) :
    ∀ arena : Arena, SameParts arena (pushRuns arena runs).2 := by
  induction runs with
  | nil => exact .refl
  | cons run rest ih =>
      intro arena
      cases run with
      | child slot => exact ih arena
      | literal text =>
          simp only [pushRuns]
          split
          · exact ih arena
          · exact (pushLiteral_sameParts arena text).trans (ih _)

/-- The children among runs are put into one list with new literals. -/
theorem pushRuns_forest {runs : List Run} :
    ∀ {arena : Arena} {ids : List Id}, (∀ x, arena.size ≤ x → x ∈ zone) →
      Forest zone arena (runSlots runs ++ ids) →
      Forest zone (pushRuns arena runs).2 ((pushRuns arena runs).1 ++ ids) := by
  -- By induction on the runs. What has been put into the list so far waits beside
  -- the children that are left.
  induction runs with
  | nil => exact fun _ h => h
  | cons run rest ih =>
      intro arena ids hzone h
      cases run with
      | child slot => exact (ih hzone (h.perm List.perm_middle.symm)).perm List.perm_middle
      | literal text =>
          simp only [pushRuns]
          split
          · exact ih hzone h
          · have hsame := pushLiteral_sameParts arena text
            have hliteral := (pushLiteral_forest hzone h text).perm List.perm_middle.symm
            exact (ih (fun x hx => hzone x (Nat.le_trans hsame.1 hx)) hliteral).perm
              List.perm_middle

/-- The elements of a list may be put into the plot of the list, among new
    literals. -/
theorem pushRuns_plot {id : Id} (h : Forest (Plot arena id) arena slots) {runs : List Run}
    (hruns : (runSlots runs).Sublist slots) :
    Forest (Plot arena id) (pushRuns arena runs).2 (pushRuns arena runs).1 := by
  have hslots : Forest (Plot arena id) arena (runSlots runs ++ []) := by
    rw [List.append_nil]
    exact h.subperm hruns.subperm
  have hchildren := pushRuns_forest (fun _ hx => Script.Arena.plot_of_le arena id hx) hslots
  rwa [List.append_nil] at hchildren

/-- The elements of the list of children may be put into another list, or
    left out. -/
theorem setChildren_keepsForests {array : Id} (harray : arena.childArray? slot = some array)
    (helements : arena.elements? array = some slots) {runs : List Run}
    (hruns : (runSlots runs).Sublist slots) : KeepsForests arena (setChildren arena slot runs) := by
  simp only [setChildren, harray]
  refine Script.Arena.setElements_keepsForests (pushRuns_sameParts runs arena) fun htree => ?_
  have hparts := Script.Arena.forest_plot htree
  rw [Script.Arena.get_of_elements? helements] at hparts
  exact pushRuns_plot hparts hruns

/-- The parts of a node in a forest are a forest. -/
theorem forest_children {id : Id} (h : Forest zone arena ids) (hid : id ∈ ids) :
    Forest zone arena (arena.get id).children := by
  have hsingle : Forest zone arena [id] := h.subperm (List.singleton_sublist.mpr hid).subperm
  have hparts := hsingle.parts
  rwa [List.append_nil] at hparts

/-- The elements of the list of children may stand below the call itself. -/
theorem children_plot {array : Id} (harray : arena.childArray? slot = some array)
    (helements : arena.elements? array = some slots) (htree : Forest Set.univ arena [slot]) :
    Forest (Plot arena slot) arena slots := by
  have hmem := Script.Arena.arguments_subset arena slot
    (Script.Arena.childArray?_mem_arguments harray)
  have hparts := forest_children (Script.Arena.forest_plot htree) hmem
  rwa [Script.Arena.get_of_elements? helements] at hparts

theorem enclose_keepsForests {children : List Id} (hsame : SameParts a b)
    (hchildren : Forest Set.univ a [slot] → Forest (Plot a slot) b children)
    (opening closing : String) : KeepsForests a (enclose b slot opening closing children) := by
  have hfragment : KeepsForests a (b.becomeFragment slot opening closing children) :=
    Script.Arena.becomeFragment_keepsForests hsame hchildren opening closing
  unfold enclose
  rcases children with _ | ⟨only, _ | _⟩
  · exact hfragment
  · dsimp only
    cases htext : b.textArgument? only with
    | none => exact hfragment
    | some argument =>
        -- The text is taken out of the call around it and put between the two literals.
        have h₁ := hsame.trans (.push b (.str opening))
        have h₂ := h₁.trans (.push _ (.str closing))
        have h₃ := h₂.trans (Script.Arena.join_sameParts _ b.size argument)
        refine Script.Arena.becomeCall_keepsForests
          (h₃.trans (Script.Arena.join_sameParts ..)) _ fun htree => ?_
        have hmem := Script.Arena.arguments_subset b only
          (Script.Arena.textArgument?_mem_arguments htext)
        have hargument := (forest_children (hchildren htree) List.mem_cons_self).subperm
          (List.singleton_sublist.mpr hmem).subperm
        have hplot {c : Arena} (h : SameParts a c) := Script.Arena.plot_of_le a slot h.1
        have hopening := hargument.pushLeaf (.str opening) (hplot hsame) rfl
        have hclosing := hopening.pushLeaf (.str closing) (hplot h₁) rfl
        have hstart := Script.Arena.join_forest
          (hclosing.perm (List.perm_append_comm : ([_] ++ [_, _]).Perm _)) (hplot h₂)
        exact Script.Arena.join_forest hstart (hplot h₃)
  · exact hfragment

/-- Folding a level moves what it keeps. -/
theorem foldLevel_keepsForests (hmatch : program.Matches slot slots) (closing : String) :
    KeepsForests program.arena (program.foldLevel slot closing slots).arena := by
  have hruns := runSlots_runs_sublist program.findings slots
  unfold foldLevel
  split
  · exact .refl _
  · dsimp only
    split
    · exact Script.Arena.becomeLiteral_keepsForests ..
    · split
      · exact .refl _
      · next hmatched =>
          obtain ⟨array, harray, helements⟩ := hmatch.resolve_left hmatched
          split
          · next content _ _ =>
              have hnone : (runSlots [.literal content]).Sublist slots := List.nil_sublist slots
              dsimp only
              exact setChildren_keepsForests harray helements hnone
          · exact setChildren_keepsForests harray helements hruns
          · exact enclose_keepsForests (pushRuns_sameParts ..)
              (fun htree => pushRuns_plot (children_plot harray helements htree) hruns) ..

theorem foldGroup_keepsForests (program : Program) (slot : Id) (slots : List Id) :
    KeepsForests program.arena (program.foldGroup slot slots).arena := by
  unfold foldGroup
  split
  · exact .refl _
  · split
    · exact Script.Arena.becomeLiteral_keepsForests ..
    · exact .refl _

theorem place_keepsForests (arena : Arena) (call : Id) (index : Nat) :
    KeepsForests arena (place arena call index) := by
  refine Script.Arena.setProperty_keepsForests (.push arena _) ?_ call _
  exact (Forest.nil _ arena).pushLeaf _ (Nat.le_refl _) rfl

/-- Numbering calls adds the numbers, and may leave other values out. -/
theorem placeAll_keepsForests (survivors : List Id) (keepPlaces : Bool) (calls : List Id) :
    ∀ (arena : Arena) (index : Nat),
      KeepsForests arena (placeAll survivors keepPlaces arena index calls) := by
  induction calls with
  | nil => exact fun arena _ => .refl arena
  | cons call rest ih =>
      intro arena index
      simp only [placeAll]
      split
      · exact (place_keepsForests arena call index).trans (ih _ _)
      · exact ih _ _

end Program

end RenderFold
