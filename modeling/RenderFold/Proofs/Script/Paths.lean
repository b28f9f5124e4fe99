import RenderFold.Proofs.Script.Forests
import RenderFold.Proofs.Script.Grafts

/-!
# Paths

A path from an index to one below it says which part to go to at every node
on the way. A span names an index once for every path, so in a forest there
is only one path to an index: from one of the roots, and by one way.

The tree below an index is read off down to a depth, since an arena may hold
cycles. Where there is a span, nothing is cut off at a depth that the span
is not longer than, and at that of the arena in particular.

## Main definitions

* `Arena.Path`: Where a way down leads.
* `Arena.IsTree`: There is one path to every index below.

## Theorems

* `Spans.path_unique`: In a forest there is one path to an index.
* `Spans.treeTo_eq`: Nothing of a tree is cut off.
* `IsTree.tree_eq`, `IsTree.part`: A tree is made of the trees below its parts.
* `Forest.isTree`, `Forest.disjoint`: The roots of a forest are trees that
  have no part in common.
-/

namespace RenderFold

namespace Script

namespace Arena

variable {arena : Arena} {zone : Set Id} {id a b x : Id} {ids span : List Id}
  {path other : List Nat}

/-- Where a way down leads. At every node on the way, the path names the place
    of the part to go on to. -/
inductive Path (arena : Arena) : Id → List Nat → Id → Prop where
  | here {id : Id} : Path arena id [] id
  | down {id part x : Id} {place : Nat} {path : List Nat}
      (hpart : (arena.get id).children[place]? = some part) (hrest : Path arena part path x) :
      Path arena id (place :: path) x

/-- All indices below lead to a node, there is only one path to each, and
    nothing of the tree is cut off. -/
structure IsTree (arena : Arena) (root : Id) : Prop where
  lt_size : ∀ path x, arena.Path root path x → x < arena.size
  unique : ∀ path other x, arena.Path root path x → arena.Path root other x → path = other
  whole : ∀ depth, arena.size ≤ depth → arena.treeTo depth root = arena.tree root

namespace Path

/-- One step further down. -/
theorem snoc (h : arena.Path a path b) {place : Nat}
    (hpart : (arena.get b).children[place]? = some x) : arena.Path a (path ++ [place]) x := by
  induction h with
  | here => exact .down hpart .here
  | down hfirst _ ih => exact .down hfirst (ih hpart)

/-- A path leads to one index only. -/
theorem eq (h : arena.Path a path b) : ∀ {x}, arena.Path a path x → b = x := by
  induction h with
  | here =>
      intro x hx
      cases hx
      rfl
  | down hpart _ ih =>
      intro x hx
      cases hx with
      | down hpart' hrest =>
          rw [hpart] at hpart'
          cases hpart'
          exact ih hrest

end Path

namespace Spans

/-- A path that begins in a span ends there. -/
theorem path_mem (h : Spans arena ids span) (ha : a ∈ span) (hpath : arena.Path a path x) :
    x ∈ span := by
  induction hpath with
  | here => exact ha
  | down hpart _ ih => exact ih (h.closed ha (List.mem_of_getElem? hpart))

/-- In a forest there is one path to an index. -/
theorem path_unique (h : Spans arena ids span) (hnodup : span.Nodup) :
    ∀ {i j : Nat} {a b : Id} {path other : List Nat}, ids[i]? = some a → ids[j]? = some b → arena.Path a path x →
      arena.Path b other x → i = j ∧ path = other := by
  -- By induction on the span. The index is found in one part of it only, so both
  -- paths begin alike, and what is left of them is about that part.
  induction h with
  | nil =>
      intro i j a b path other ha
      cases ha
  | @cons id ids below rest hlt hbelow hrest ihbelow ihrest =>
      intro i j a b path other ha hb hpath hother
      obtain ⟨hnodupB, hnodupR, hdisjoint⟩ := List.nodup_append.mp hnodup
      obtain ⟨hid, hnodupB⟩ := List.nodup_cons.mp hnodupB
      have hfirst : Spans arena [id] (id :: below) := single_iff.mpr ⟨below, hlt, hbelow, rfl⟩
      have hapart {path other : List Nat} {k : Nat} {c : Id} (hc : ids[k]? = some c)
          (hpath : arena.Path id path x) (hother : arena.Path c other x) : False :=
        hdisjoint x (hfirst.path_mem List.mem_cons_self hpath) x
          (hrest.path_mem (hrest.subset (List.mem_of_getElem? hc)) hother) rfl
      match i, j with
      | 0, 0 =>
          cases ha
          cases hb
          refine ⟨rfl, ?_⟩
          cases hpath with
          | here =>
              cases hother with
              | here => rfl
              | down hpart hdown =>
                  exact absurd (hbelow.path_mem (hbelow.subset (List.mem_of_getElem? hpart)) hdown)
                    hid
          | down hpart hdown =>
              cases hother with
              | here =>
                  exact absurd (hbelow.path_mem (hbelow.subset (List.mem_of_getElem? hpart)) hdown)
                    hid
              | down hpart' hdown' =>
                  obtain ⟨rfl, rfl⟩ := ihbelow hnodupB hpart hpart' hdown hdown'
                  rfl
      | 0, j + 1 =>
          cases ha
          exact (hapart hb hpath hother).elim
      | i + 1, 0 =>
          cases hb
          exact (hapart ha hother hpath).elim
      | i + 1, j + 1 =>
          obtain ⟨rfl, rfl⟩ := ihrest hnodupR ha hb hpath hother
          exact ⟨rfl, rfl⟩

/-- Nothing of a tree is cut off at a depth that its span is not longer
    than. -/
theorem treeTo_eq (h : Spans arena ids span) :
    ∀ {depth depth'}, span.length ≤ depth → span.length ≤ depth' →
      ∀ id ∈ ids, arena.treeTo depth id = arena.treeTo depth' id := by
  induction h with
  | nil => exact fun _ _ _ hid => absurd hid List.not_mem_nil
  | @cons first ids below rest hlt hbelow hrest ihbelow ihrest =>
      intro depth depth' hdepth hdepth' id hid
      simp only [List.length_append, List.length_cons] at hdepth hdepth'
      rcases List.mem_cons.mp hid with rfl | hid
      · obtain ⟨depth, rfl⟩ := Nat.exists_eq_succ_of_ne_zero (by omega : depth ≠ 0)
        obtain ⟨depth', rfl⟩ := Nat.exists_eq_succ_of_ne_zero (by omega : depth' ≠ 0)
        have hparts : ∀ part ∈ (arena.get id).children,
            arena.treeTo depth part = arena.treeTo depth' part :=
          ihbelow (by omega) (by omega)
        rw [treeTo, treeTo, Node.map_congr hparts]
      · exact ihrest (by omega) (by omega) id hid

end Spans

namespace IsTree

/-- The tree below an index is its node with the trees below its parts. -/
theorem tree_eq (h : IsTree arena id) : arena.tree id = .mk ((arena.get id).map arena.tree) := by
  rw [← h.whole (arena.size + 1) (Nat.le_succ _)]
  rfl

/-- What is below a tree is one as well. -/
theorem part (h : IsTree arena id) (hx : x ∈ (arena.get id).children) : IsTree arena x := by
  obtain ⟨place, hplace⟩ := List.getElem?_of_mem hx
  refine ⟨fun path y hpath => h.lt_size _ y (.down hplace hpath),
    fun path other y hpath hother => ?_, fun depth hdepth => ?_⟩
  · exact (List.cons.inj (h.unique _ _ y (.down hplace hpath) (.down hplace hother))).2
  · have hsame : arena.treeTo (depth + 1) id = arena.treeTo (arena.size + 1) id :=
      (h.whole _ (Nat.le_succ_of_le hdepth)).trans (h.whole _ (Nat.le_succ _)).symm
    simp only [treeTo, Tree.mk.injEq] at hsame
    have hparts := congrArg Node.children hsame
    rw [Node.children_map, Node.children_map] at hparts
    exact List.map_inj_left.mp hparts x hx

theorem below (h : IsTree arena id) (hpath : arena.Path id path x) : IsTree arena x := by
  induction hpath with
  | here => exact h
  | down hpart _ ih => exact ih (h.part (List.mem_of_getElem? hpart))

end IsTree

namespace Forest

/-- The roots of a forest are trees. -/
theorem isTree (h : Forest zone arena ids) (hid : id ∈ ids) : IsTree arena id := by
  obtain ⟨span, hspans, hnodup, -⟩ := h
  obtain ⟨i, hi⟩ := List.getElem?_of_mem hid
  refine ⟨fun path x hpath => ?_, fun path other x hpath hother => ?_, fun depth hdepth => ?_⟩
  · exact hspans.lt_size x (hspans.path_mem (hspans.subset hid) hpath)
  · exact (hspans.path_unique hnodup hi hi hpath hother).2
  · have hle := length_le_size hspans hnodup
    exact hspans.treeTo_eq (Nat.le_trans hle hdepth) hle id hid

/-- The trees of a forest have no part in common. -/
theorem disjoint (h : Forest zone arena ids) (ha : a ∈ ids) (hb : b ∈ ids) (hne : a ≠ b)
    (hpath : arena.Path a path x) : ¬ arena.Path b other x := by
  intro hother
  obtain ⟨span, hspans, hnodup, -⟩ := h
  obtain ⟨i, hi⟩ := List.getElem?_of_mem ha
  obtain ⟨j, hj⟩ := List.getElem?_of_mem hb
  obtain ⟨rfl, -⟩ := hspans.path_unique hnodup hi hj hpath hother
  exact hne (Option.some.inj (hi.symm.trans hj))

end Forest

end Arena

end Script

end RenderFold
