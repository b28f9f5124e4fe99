import RenderFold.Proofs.Component.Children
import RenderFold.Proofs.Folding.LevelForests
import RenderFold.Proofs.Script.Rewritten

/-!
# Trees of a Folded Level

Folding a level rewrites one node: the call itself, or the list of children in
it. What stands below that node is put together from the trees of the children
that are left, which are as they were, and from new literals. A single child
that is a text is taken out of the call around it.

## Main definitions

* `Arena.HoldsList`: Where the children stand in a call.
* `Arena.callAround`: The call with other children.
* `Run.trees`: The trees that runs of children are put into.

## Theorems

* `Program.pushRuns_trees`: New children.
* `Program.enclose_tree`: Markup around children.
-/

namespace RenderFold

namespace Script.Arena

variable {arena : Arena} {id : Id}

/-- Markup that is constructed from a single text. -/
theorem textArgument?_eq_some {argument : Id} (h : arena.textArgument? id = some argument) :
    arena.helper? id = some .markup ∧ arena.arguments id = [argument] := by
  unfold textArgument? at h
  split at h
  · next htext =>
      obtain ⟨hhelper, hlength⟩ := Bool.and_eq_true_iff.mp htext
      obtain ⟨only, hargument⟩ := List.length_eq_one_iff.mp (beq_iff_eq.mp hlength)
      rw [hargument] at h ⊢
      cases h
      exact ⟨of_decide_eq_true hhelper, rfl⟩
  · cases h

/-- Where the list of children stands among the arguments of a call: third in
    markup, and second or third in an element. -/
structure HoldsList (arena : Arena) (id list : Id) (helper : Helper) (before after : List Id) :
    Prop where
  helper_eq : arena.helper? id = some helper
  arguments_eq : arena.arguments id = before ++ list :: after
  place : helper = .markup ∧ before.length = 2 ∨ helper = .element ∧ (before.length = 1 ∨
    ∃ tag second, before = [tag, second] ∧ second ≠ list)

theorem holdsList_of_childArray? {list : Id} (h : arena.childArray? id = some list) :
    ∃ helper before after, arena.HoldsList id list helper before after := by
  obtain ⟨-, hplace⟩ := place_of_childArray? h
  rcases hplace with ⟨hhelper, hthird⟩ | ⟨hhelper, second, hsecond, rfl | ⟨hne, hthird⟩⟩
  · obtain ⟨hlt, rfl⟩ := List.getElem?_eq_some_iff.mp hthird
    refine ⟨.markup, (arena.arguments id).take 2, (arena.arguments id).drop 3, hhelper, ?_,
      Or.inl ⟨rfl, List.length_take_of_le (by omega)⟩⟩
    rw [← List.drop_eq_getElem_cons, List.take_append_drop]
  · obtain ⟨hlt, rfl⟩ := List.getElem?_eq_some_iff.mp hsecond
    refine ⟨.element, (arena.arguments id).take 1, (arena.arguments id).drop 2, hhelper, ?_,
      Or.inr ⟨rfl, Or.inl (List.length_take_of_le (by omega))⟩⟩
    rw [← List.drop_eq_getElem_cons, List.take_append_drop]
  · match harguments : arena.arguments id, hsecond, hthird with
    | tag :: second :: third :: after, rfl, rfl =>
        exact ⟨.element, [tag, second], after, hhelper, harguments,
          Or.inr ⟨rfl, Or.inr ⟨tag, second, rfl, hne⟩⟩⟩

namespace HoldsList

variable {list : Id} {helper : Helper} {before after : List Id}

theorem constructsNode (h : arena.HoldsList id list helper before after) :
    helper.constructsNode = true := by
  rcases h.place with ⟨rfl, -⟩ | ⟨rfl, -⟩ <;> rfl

theorem mem_children (h : arena.HoldsList id list helper before after) :
    list ∈ (arena.get id).children := by
  refine arguments_subset arena id ?_
  rw [h.arguments_eq]
  exact List.mem_append_right _ List.mem_cons_self

end HoldsList

/-- A call with some expression in the place of its list of children. -/
def callAround (arena : Arena) (helper : Helper) (before after : List Id) (list : Tree) : Tree :=
  .ofCall helper (before.map arena.tree ++ list :: after.map arena.tree)

end Script.Arena

open Script (Arena Id Tree)
open Script.Arena (Extends Forest)

/-- The trees that runs of children are put into. Empty literals are left
    out. -/
def Run.trees (tree : Id → Tree) : List Run → List Tree
  | [] => []
  | .child slot :: rest => tree slot :: trees tree rest
  | .literal text :: rest =>
    if text = "" then trees tree rest
    else .ofCall .markup [.mk (.str text)] :: trees tree rest

namespace Run

theorem trees_congr {tree other : Id → Tree} {runs : List Run}
    (h : ∀ x ∈ Program.runSlots runs, tree x = other x) : trees tree runs = trees other runs := by
  induction runs with
  | nil => rfl
  | cons run rest ih =>
      cases run with
      | child slot =>
          obtain ⟨hslot, hrest⟩ := List.forall_mem_cons.mp h
          rw [trees, trees, hslot, ih hrest]
      | literal text =>
          rw [trees, trees, ih h]

end Run

namespace Program

variable {arena : Arena} {zone : Set Id} {slot list : Id} {elements : List Id} {runs : List Run}

theorem pushLiteral_extends (arena : Arena) (text : String) :
    Extends arena (arena.pushLiteral text).2 :=
  ((Extends.push arena _).trans (.push _ _)).trans (.push _ _)

/-- The children that are put in have the trees of their runs. -/
theorem pushRuns_trees : ∀ {arena : Arena}, Forest Set.univ arena (runSlots runs) →
    Extends arena (pushRuns arena runs).2 ∧
      (pushRuns arena runs).1.map (pushRuns arena runs).2.tree = Run.trees arena.tree runs := by
  induction runs with
  | nil => exact fun _ => ⟨.refl _, rfl⟩
  | cons run rest ih =>
      intro arena h
      cases run with
      | child slot =>
          have hslot : Forest Set.univ arena [slot] :=
            h.subperm (List.singleton_sublist.mpr List.mem_cons_self).subperm
          obtain ⟨hext, htrees⟩ := ih (h.subperm (List.sublist_cons_self ..).subperm)
          refine ⟨hext, ?_⟩
          rw [Run.trees, ← htrees, ← hslot.tree_extends hext List.mem_cons_self]
          rfl
      | literal text =>
          simp only [pushRuns, Run.trees]
          split
          · exact ih h
          · have hliteral := pushLiteral_extends arena text
            have hnew : Forest Set.univ (arena.pushLiteral text).2 [(arena.pushLiteral text).1] :=
              pushLiteral_forest (fun _ _ => trivial) (.nil _ _) text
            have hrest : Forest Set.univ arena (runSlots rest) := h
            have hsame : Run.trees (arena.pushLiteral text).2.tree rest =
                Run.trees arena.tree rest :=
              Run.trees_congr fun x hx => hrest.tree_extends hliteral hx
            obtain ⟨hext, htrees⟩ := ih ((pushLiteral_sameParts arena text).forest hrest)
            refine ⟨hliteral.trans hext, ?_⟩
            rw [List.map_cons, htrees, hnew.tree_extends hext List.mem_cons_self,
              Script.Arena.tree_pushLiteral, hsame]

/-- Runs of children that do not have some expression below them are put in
    apart from it. -/
theorem pushRuns_apart {root : Id} (hlt : root < arena.size)
    (h : Forest {x | x ≠ root} arena (runSlots runs)) :
    Extends arena (pushRuns arena runs).2 ∧
      Forest {x | x ≠ root} (pushRuns arena runs).2 (pushRuns arena runs).1 ∧
      (pushRuns arena runs).1.map (pushRuns arena runs).2.tree = Run.trees arena.tree runs := by
  obtain ⟨hext, htrees⟩ := pushRuns_trees (h.mono fun _ _ => trivial)
  rw [← List.append_nil (runSlots runs)] at h
  have hpushed := pushRuns_forest (fun x hx => Nat.ne_of_gt (Nat.lt_of_lt_of_le hlt hx)) h
  rw [List.append_nil] at hpushed
  exact ⟨hext, hpushed, htrees⟩

section Call

variable {helper : Helper} {before after : List Id}

/-- The tree of a call with its children in a list. -/
theorem tree_of_holdsList (htree : Script.Arena.IsTree arena slot)
    (hholds : arena.HoldsList slot list helper before after)
    (helements : arena.elements? list = some elements) :
    arena.tree slot =
      arena.callAround helper before after (.mk (.array (elements.map arena.tree))) := by
  have hlist : arena.tree list = .mk (.array (elements.map arena.tree)) := by
    rw [(htree.part hholds.mem_children).tree_eq, Script.Arena.get_of_elements? helements]
    rfl
  rw [htree.tree_call hholds.helper_eq, hholds.arguments_eq, List.map_append, List.map_cons, hlist]
  rfl

/-- The list stands below the call, and apart from the other parts of it. -/
theorem parts_apart (h : Forest Set.univ arena [slot])
    (helements : arena.elements? list = some elements)
    (hholds : arena.HoldsList slot list helper before after) {callee : Id}
    (hcall : arena.get slot = .call callee (arena.arguments slot)) :
    list ≠ slot ∧ list < arena.size ∧
      Forest {x | x ≠ list} arena (elements ++ callee :: (before ++ after)) := by
  have hparts := h.without_root
  rw [List.append_nil, hcall, hholds.arguments_eq] at hparts
  have hmem := List.mem_cons_of_mem callee
    (List.mem_append_right before (List.mem_cons_self (a := list) (l := after)))
  have hperm : (callee :: (before ++ list :: after)).Perm (list :: callee :: (before ++ after)) :=
    (List.perm_middle.cons callee).trans (.swap ..)
  have hroot := (hparts.perm hperm).without_root
  rw [Script.Arena.get_of_elements? helements] at hroot
  exact ⟨(hparts.mem hmem).1, (hparts.mem hmem).2, hroot⟩

end Call

/-- Putting markup around children, which are taken out of the call. -/
theorem enclose_tree (hlt : slot < arena.size) {children : List Id}
    (h : Forest {x | x ≠ slot} arena children) (opening closing : String) :
    (enclose arena slot opening closing children).tree slot =
        .ofCall .markup [.mk (.str opening), .mk (.str closing),
          .mk (.array (children.map arena.tree))] ∨
      ∃ text whole, children.map arena.tree = [.ofCall .markup [text]] ∧
        Tree.IsWrapped opening text closing whole ∧
        (enclose arena slot opening closing children).tree slot = .ofCall .markup [whole] := by
  have hfragment := Script.Arena.tree_becomeFragment hlt h opening closing
  unfold enclose
  rcases children with _ | ⟨only, _ | _⟩
  · exact Or.inl hfragment
  · dsimp only
    cases htext : arena.textArgument? only with
    | none => exact Or.inl hfragment
    | some argument =>
        obtain ⟨hhelper, harguments⟩ := Script.Arena.textArgument?_eq_some htext
        have hmem := Script.Arena.arguments_subset arena only
          (Script.Arena.textArgument?_mem_arguments htext)
        have hargument := (forest_children h List.mem_cons_self).subperm
          (List.singleton_sublist.mpr hmem).subperm
        obtain ⟨whole, hwrapped, htree⟩ :=
          Script.Arena.tree_becomeText_wrapped hlt hargument opening closing
        refine Or.inr ⟨_, whole, ?_, hwrapped, htree⟩
        rw [List.map_singleton, (h.isTree List.mem_cons_self).tree_call hhelper, harguments]
        rfl
  · exact Or.inl hfragment

end Program

end RenderFold
