import RenderFold.Proofs.Data.Fields
import RenderFold.Proofs.Folding.Closings

/-!
# Styles of a Tree

The styles of a folded tree are those of its entries: every id of an entry is
an id of the tree, and every style of the tree is a style of an entry, though
an id that several entries have is listed once. The same goes for an entry that
takes over the styles of children that leave. So closing an entry loses no id
and makes up no style.

## Main definitions

* `FoldedTree.Brings`, `Builder.Brings`: An entry has a style.

## Theorems

* `FoldedTree.brings_of_mem`, `FoldedTree.mem_keys_allStyles`: The styles of a
  tree.
* `Builder.brings_of_close`, `Builder.brings_close`: What closing an entry does
  to them.
-/

namespace RenderFold

namespace FoldedTree

/-- An entry of a tree has a style. -/
def Brings (tree : FoldedTree) (style : String × String) : Prop :=
  ∃ entry, tree.Has entry ∧ style ∈ entry.styles

variable {tree child : FoldedTree} {style : String × String} {name : String}

theorem Brings.below (h : child.Brings style) (hchild : child ∈ tree.children) :
    tree.Brings style := by
  obtain ⟨entry, hentry, hstyle⟩ := h
  exact ⟨entry, .child hchild hentry, hstyle⟩

/-- A style of a tree is one of its own entry, or it is below. -/
theorem brings_iff : tree.Brings style ↔
    style ∈ tree.styles ∨ ∃ child ∈ tree.children, child.Brings style := by
  constructor
  · rintro ⟨entry, hentry, hstyle⟩
    cases hentry with
    | self => exact .inl hstyle
    | child hchild hentry => exact .inr ⟨_, hchild, entry, hentry, hstyle⟩
  · rintro (hstyle | ⟨child, hchild, hbrings⟩)
    · exact ⟨tree, .self, hstyle⟩
    · exact hbrings.below hchild

/-- An id of a tree is one of its own entry, or it is below. -/
theorem brings_id_iff : (∃ css, tree.Brings (name, css)) ↔
    name ∈ Fields.keys tree.styles ∨ ∃ child ∈ tree.children, ∃ css, child.Brings (name, css) := by
  rw [Fields.mem_keys_iff]
  constructor
  · rintro ⟨css, hbrings⟩
    rcases brings_iff.mp hbrings with hown | ⟨child, hchild, hbelow⟩
    · exact .inl ⟨css, hown⟩
    · exact .inr ⟨child, hchild, css, hbelow⟩
  · rintro (⟨css, hown⟩ | ⟨child, hchild, css, hbelow⟩)
    · exact ⟨css, brings_iff.mpr (.inl hown)⟩
    · exact ⟨css, hbelow.below hchild⟩

mutual

theorem mem_stylesOver : ∀ (tree : FoldedTree) (styles : Styles), style ∈ stylesOver styles tree →
    style ∈ styles ∨ tree.Brings style
  | .mk component function isStatic own children, styles => by
      intro h
      simp only [stylesOver] at h
      rw [brings_iff]
      rcases mem_childStylesOver children _ h with h | h
      · exact (Fields.mem_of_mem_overlay h).imp_right .inl
      · exact .inr (.inr h)

theorem mem_childStylesOver : ∀ (trees : List FoldedTree) (styles : Styles),
    style ∈ childStylesOver styles trees → style ∈ styles ∨ ∃ tree ∈ trees, tree.Brings style
  | [], _ => Or.inl
  | tree :: rest, styles => by
      intro h
      simp only [childStylesOver] at h
      rw [List.exists_mem_cons_iff]
      rcases mem_stylesOver tree _ h with h | h
      · exact (mem_childStylesOver rest styles h).imp_right .inr
      · exact .inr (.inl h)

end

mutual

theorem mem_keys_stylesOver : ∀ (tree : FoldedTree) (styles : Styles),
    name ∈ Fields.keys (stylesOver styles tree) ↔
      name ∈ Fields.keys styles ∨ ∃ css, tree.Brings (name, css)
  | .mk component function isStatic own children, styles => by
      rw [stylesOver, mem_keys_childStylesOver children, Fields.mem_keys_overlay, or_assoc,
        brings_id_iff]

theorem mem_keys_childStylesOver : ∀ (trees : List FoldedTree) (styles : Styles),
    name ∈ Fields.keys (childStylesOver styles trees) ↔
      name ∈ Fields.keys styles ∨ ∃ tree ∈ trees, ∃ css, tree.Brings (name, css)
  | [], styles => by simp [childStylesOver]
  | tree :: rest, styles => by
      simp only [childStylesOver, List.exists_mem_cons_iff]
      rw [mem_keys_stylesOver tree, mem_keys_childStylesOver rest, or_assoc,
        or_comm (a := ∃ css, tree.Brings (name, css))]

end

/-- A style of a tree is a style of an entry. -/
theorem brings_of_mem (h : style ∈ tree.allStyles) : tree.Brings style :=
  (mem_stylesOver tree [] h).resolve_left List.not_mem_nil

/-- The style ids of a tree are those of its entries. -/
theorem mem_keys_allStyles : name ∈ Fields.keys tree.allStyles ↔ ∃ css, tree.Brings (name, css) :=
  (mem_keys_stylesOver tree []).trans (or_iff_right List.not_mem_nil)

end FoldedTree

namespace Builder

variable {builder : Builder} {style : String × String} {name : String} {slot : Script.Id}
  {stays : Script.Id → Bool} {tree : FoldedTree}

/-- An entry has a style, be it open or closed. -/
def Brings (builder : Builder) (style : String × String) : Prop :=
  (∃ entry ∈ builder.entries, style ∈ entry.styles) ∨ ∃ tree ∈ builder.trees, tree.Brings style

/-- A style of a child is below the entry if the child stays, and goes into the entry if it
    does not. -/
theorem brings_of_settle (children : List (Script.Id × FoldedTree)) (styles : Styles)
    (h : style ∈ (settle stays styles children).1 ∨
      ∃ child ∈ (settle stays styles children).2, child.Brings style) :
    style ∈ styles ∨ ∃ child ∈ children, child.2.Brings style := by
  induction children generalizing styles with
  | nil => exact h.imp_right fun ⟨child, hchild, _⟩ => absurd hchild List.not_mem_nil
  | cons first rest ih =>
      obtain ⟨slot, child⟩ := first
      rw [List.exists_mem_cons_iff]
      rw [settle] at h
      split at h
      · dsimp only at h
        rw [List.exists_mem_cons_iff, or_left_comm] at h
        rcases h with hchild | h
        · exact .inr (.inl hchild)
        · exact (ih styles h).imp_right .inr
      · rcases ih _ h with hstyles | hrest
        · rcases Fields.mem_of_mem_insertAllNew hstyles with hold | hmoved
          · exact .inl hold
          · exact .inr (.inl (FoldedTree.brings_of_mem hmoved))
        · exact .inr (.inr hrest)

/-- No id of a child is lost. -/
theorem brings_settle (children : List (Script.Id × FoldedTree)) (styles : Styles) :
    (name ∈ Fields.keys (settle stays styles children).1 ∨
      ∃ child ∈ (settle stays styles children).2, ∃ css, child.Brings (name, css)) ↔
    name ∈ Fields.keys styles ∨ ∃ child ∈ children, ∃ css, child.2.Brings (name, css) := by
  induction children generalizing styles with
  | nil => simp only [settle, List.not_mem_nil, false_and, exists_false]
  | cons first rest ih =>
      obtain ⟨slot, child⟩ := first
      rw [List.exists_mem_cons_iff, settle]
      split
      · dsimp only
        rw [List.exists_mem_cons_iff, or_left_comm, ih, or_left_comm]
      · rw [ih, Fields.mem_keys_insertAllNew, FoldedTree.mem_keys_allStyles, or_assoc]

theorem brings_enter (component : String) (styles : Styles) :
    (builder.enter component styles).Brings style ↔ style ∈ styles ∨ builder.Brings style := by
  unfold Brings
  rw [enter, List.exists_mem_cons_iff, or_assoc]
  rfl

/-- The styles of an open entry and of what is around it. -/
theorem brings_cons {entry : OpenEntry} {others : List OpenEntry}
    (hentries : builder.entries = entry :: others) :
    builder.Brings style ↔
      (style ∈ entry.styles ∨ ∃ child ∈ entry.children, child.2.Brings style) ∨
        Brings { builder with entries := others } style := by
  obtain ⟨entries, root⟩ := builder
  cases hentries
  simp only [Brings, trees, List.flatMap_cons, List.mem_append, List.mem_map, List.mem_cons]
  grind

/-- A tree that finds a place is there afterwards. -/
theorem brings_attach (hplace : builder.entries ≠ [] ∨ builder.root = none) :
    (builder.attach slot tree).Brings style ↔ builder.Brings style ∨ tree.Brings style := by
  obtain ⟨_ | ⟨parent, rest⟩, root⟩ := builder
  · cases hplace.resolve_left fun hne => hne rfl
    simp [attach, Brings, trees]
  · simp only [attach, Brings, trees, List.flatMap_cons, List.mem_append, List.mem_map,
      List.mem_cons, List.map_append]
    grind

section Close

variable {function : RenderFunction} {isStatic : Bool}

/-- Closing an entry makes up no style. -/
theorem brings_of_close (hplace : builder.entries.tail ≠ [] ∨ builder.root = none)
    (h : (builder.close slot function isStatic stays).Brings style) : builder.Brings style := by
  rcases hentries : builder.entries with _ | ⟨entry, others⟩
  · rwa [close, hentries] at h
  · rw [hentries] at hplace
    simp only [close, hentries] at h
    rw [brings_cons hentries]
    rcases (brings_attach hplace).mp h with hothers | hentry
    · exact .inr hothers
    · exact .inl (brings_of_settle entry.children entry.styles (FoldedTree.brings_iff.mp hentry))

/-- Closing an entry loses no id. -/
theorem brings_close {css : String} (hplace : builder.entries.tail ≠ [] ∨ builder.root = none)
    (h : builder.Brings (name, css)) :
    ∃ css, (builder.close slot function isStatic stays).Brings (name, css) := by
  rcases hentries : builder.entries with _ | ⟨entry, others⟩
  · rw [close, hentries]
    exact ⟨css, h⟩
  · rw [hentries] at hplace
    have hattach (tree : FoldedTree) {css : String} :
        (attach { builder with entries := others } slot tree).Brings (name, css) ↔
          Brings { builder with entries := others } (name, css) ∨ tree.Brings (name, css) :=
      brings_attach hplace
    simp only [close, hentries]
    rcases (brings_cons hentries).mp h with hentry | hothers
    · -- The id is in the entry or below, and stays so when children leave.
      have hids : name ∈ Fields.keys entry.styles ∨
          ∃ child ∈ entry.children, ∃ css, child.2.Brings (name, css) := by
        rcases hentry with hown | hbelow
        · exact .inl (Fields.mem_keys_iff.mpr ⟨css, hown⟩)
        · obtain ⟨child, hchild, hbelow⟩ := hbelow
          exact .inr ⟨child, hchild, css, hbelow⟩
      have hsettled := (@brings_settle name stays entry.children entry.styles).mpr hids
      obtain ⟨css', hcss⟩ := (@FoldedTree.brings_id_iff
        ⟨entry.component, function, isStatic, _, _⟩ name).mpr hsettled
      exact ⟨css', (hattach _).mpr (.inr hcss)⟩
    · exact ⟨css, (hattach _).mpr (.inl hothers)⟩

end Close

end Builder

end RenderFold
