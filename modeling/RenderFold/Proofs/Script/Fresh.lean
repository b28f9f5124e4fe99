import RenderFold.Proofs.Script.Building
import RenderFold.Proofs.Script.Reachable

/-!
# Fresh Trees

Reading a source text into an arena leaves the nodes that are there as they
are, whether it succeeds or fails, and what it adds stands apart from them.
The parts of a new node are new, and they are parts of that node only. So
what is read is a tree that has no node in common with anything that was
there before, and it may be rewritten without a look at the rest.

All this is read off the steps of `Builds`. What carries the induction is
that the indices at hand are free: no new node refers to one of them yet.

An arena may hold references that lead nowhere, and a node that is added can
be what they lead to from then on. Such places are left out of what is said:
they referred to the index before there was a node.

## Main definitions

* `Arena.Fresh`: What is added stands apart from what was there.
* `Arena.Loose`: What is added, and the indices that are at hand.
* `Arena.NewTree`: A tree of new nodes, out of reach for the others.

## Theorems

* `Builds.loose`: Building adds what stands apart.
* `Extends.reachable_lt`: Nothing new comes into reach.
* `Arena.parse_fresh`: Reading a source text.
-/

namespace RenderFold

namespace Script

namespace Arena

variable {a b : Arena} {ids : List Id} {root : Id}

/-- Nodes were added to an arena, and the others are as they were. New nodes
    are made of earlier new nodes, and at most one place refers to each:
    one part of one node, unless the place did so before. -/
structure Fresh (a b : Arena) : Prop where
  kept : Extends a b
  parts : ∀ x ∈ added a b, ∀ part ∈ (b.get x).children, part ∈ added a b ∧ part < x
  once : ∀ x ∈ added a b, ∀ (y z : Id) (i j : Nat), x ∉ (a.get y).children → x ∉ (a.get z).children →
    (b.get y).children[i]? = some x → (b.get z).children[j]? = some x → y = z ∧ i = j

/-- Nodes were added to an arena, and the indices in `ids` belong to some of
    them. No new node refers to one of these. -/
structure Loose (a b : Arena) (ids : List Id) : Prop extends Fresh a b where
  new : ∀ x ∈ ids, x ∈ added a b
  nodup : ids.Nodup
  free : ∀ x ∈ ids, ∀ y ∈ added a b, x ∉ (b.get y).children

/-- An index is the root of a tree of new nodes. None of them can be reached
    from a root that was there before, as long as all that could be reached
    from it led to a node. -/
structure NewTree (a b : Arena) (root : Id) : Prop where
  new : root ∈ added a b
  tree : IsTree b root
  within : ∀ x ∈ b.reachable root, x ∈ added a b
  apart : ∀ old, (∀ x ∈ a.reachable old, x < a.size) →
    (b.reachable old).Disjoint (b.reachable root)

namespace Fresh

/-- A place that refers to a new node, and did not before, is in a new
    node. -/
theorem mem_added (hkept : Extends a b) {x y : Id} (hold : x ∉ (a.get y).children)
    (hx : x ∈ (b.get y).children) : y ∈ added a b := by
  refine ⟨Nat.le_of_not_lt fun hlt => hold (hkept.2 y hlt ▸ hx), Nat.lt_of_not_le fun hle => ?_⟩
  rw [get_of_size_le hle] at hx
  exact absurd hx List.not_mem_nil

theorem refl (a : Arena) : Fresh a a := by
  refine ⟨.refl a, fun x hx => ?_, fun x hx => ?_⟩
  all_goals
    rw [added_self] at hx
    exact absurd hx (Set.notMem_empty x)

end Fresh

namespace Loose

theorem nil (a : Arena) : Loose a a [] where
  toFresh := .refl a
  new _ hx := absurd hx List.not_mem_nil
  nodup := List.nodup_nil
  free _ hx := absurd hx List.not_mem_nil

theorem subperm {ids' : List Id} (h : Loose a b ids) (hsub : ids'.Subperm ids) :
    Loose a b ids' where
  toFresh := h.toFresh
  new x hx := h.new x (hsub.subset hx)
  nodup := by
    obtain ⟨middle, hperm, hsub⟩ := hsub
    exact hperm.nodup_iff.mp (h.nodup.sublist hsub)
  free x hx := h.free x (hsub.subset hx)

/-- A new node over the first indices, which nothing else refers to. -/
theorem push {node : Node Id} (h : Loose a b (node.children ++ ids)) :
    Loose a (b.push node).2 ((b.push node).1 :: ids) := by
  have hself : (b.push node).2.get b.size = node := get_push_self b node
  have hext := h.kept.trans (.push b node)
  have hchild (x : Id) (hx : x ∈ node.children) : x ∈ added a b :=
    h.new x (List.mem_append_left _ hx)
  have hnew (x : Id) (hx : x ∈ ids) : x ∈ added a b := h.new x (List.mem_append_right _ hx)
  have hwider (x : Id) (hx : x ∈ added a b) : x ∈ added a (b.push node).2 :=
    ⟨hx.1, Nat.lt_of_lt_of_le hx.2 (Extends.push b node).1⟩
  -- A new node is the one that is added, or was there and has the parts it had.
  have hcases (y : Id) (hy : y ∈ added a (b.push node).2) :
      y = b.size ∨ y ∈ added a b ∧ (b.push node).2.get y = b.get y := by
    have hlt : y < b.size + 1 := size_push b node ▸ hy.2
    rcases Nat.lt_succ_iff_lt_or_eq.mp hlt with hlt | heq
    · exact Or.inr ⟨⟨hy.1, hlt⟩, get_push_of_ne b node (Nat.ne_of_lt hlt)⟩
    · exact Or.inl heq
  have hparts (x : Id) (hx : x ∈ added a (b.push node).2) (part : Id)
      (hpart : part ∈ ((b.push node).2.get x).children) : part ∈ added a b ∧ part < x := by
    rcases hcases x hx with rfl | ⟨hx, hsame⟩
    · rw [hself] at hpart
      exact ⟨hchild part hpart, (hchild part hpart).2⟩
    · exact h.parts x hx part (hsame ▸ hpart)
  obtain ⟨hnodup, hnodup', hdisjoint⟩ := List.nodup_append.mp h.nodup
  refine { kept := hext, parts := fun x hx part hpart => ?_, once := fun x hx => ?_,
           new := fun x hx => ?_, nodup := ?_, free := fun x hx y hy hpart => ?_ }
  · exact ⟨hwider part (hparts x hx part hpart).1, (hparts x hx part hpart).2⟩
  · intro y z i j hy hz hyx hzx
    have hyx' := List.mem_of_getElem? hyx
    have hzx' := List.mem_of_getElem? hzx
    -- Its own parts were free, so no other new node refers to them.
    rcases hcases y (Fresh.mem_added hext hy hyx') with rfl | ⟨hyin, hysame⟩
    · rcases hcases z (Fresh.mem_added hext hz hzx') with rfl | ⟨hzin, hzsame⟩
      · rw [hself] at hyx hzx
        obtain ⟨hi, -⟩ := List.getElem?_eq_some_iff.mp hyx
        exact ⟨rfl, (List.getElem?_inj hi hnodup).mp (hyx.trans hzx.symm)⟩
      · rw [hself] at hyx'
        exact absurd (hzsame ▸ hzx') (h.free x (List.mem_append_left _ hyx') z hzin)
    · rcases hcases z (Fresh.mem_added hext hz hzx') with rfl | ⟨hzin, hzsame⟩
      · rw [hself] at hzx'
        exact absurd (hysame ▸ hyx') (h.free x (List.mem_append_left _ hzx') y hyin)
      · have hxin := (h.parts y hyin x (hysame ▸ hyx')).1
        exact h.once x hxin y z i j hy hz (hysame ▸ hyx) (hzsame ▸ hzx)
  · rcases List.mem_cons.mp hx with rfl | hx
    · exact ⟨h.kept.1, size_push b node ▸ Nat.lt_succ_self _⟩
    · exact hwider x (hnew x hx)
  · exact List.nodup_cons.mpr ⟨fun hin => Nat.lt_irrefl _ (hnew _ hin).2, hnodup'⟩
  · rcases List.mem_cons.mp hx with rfl | hx
    · exact Nat.lt_irrefl _ (hparts y hy _ hpart).1.2
    · rcases hcases y hy with rfl | ⟨hy, hsame⟩
      · rw [hself] at hpart
        exact hdisjoint x hpart x hx rfl
      · exact h.free x (List.mem_append_right _ hx) y hy (hsame ▸ hpart)

end Loose

/-- Building with nothing at hand adds what stands apart. -/
theorem Builds.loose (h : Builds a [] b ids) : Loose a b ids := by
  induction h with
  | start => exact .nil a
  | give _ hsub ih => exact ih.subperm hsub
  | push node _ ih => exact ih.push

/-- If all that can be reached from a root leads to a node, no new node comes
    into reach. -/
theorem Extends.reachable_lt (h : Extends a b) {old : Id}
    (hold : ∀ x ∈ a.reachable old, x < a.size) : ∀ x ∈ b.reachable old, x < a.size := by
  obtain ⟨hself, hparts⟩ := a.reachable_closed old
  have hclosed : Closed b {x | x ∈ a.reachable old} := by
    intro x hx
    refine ⟨Nat.lt_of_lt_of_le (hold x hx) h.1, fun part hpart => ?_⟩
    exact hparts x hx part (h.2 x (hold x hx) ▸ hpart)
  intro x hx
  exact hold x (reachable_mem hclosed hself x hx)

/-- What is built and at hand is a tree of its own. -/
theorem Builds.newTree (h : Builds a [] b [root]) : NewTree a b root := by
  have hnew : root ∈ added a b := h.loose.new root List.mem_cons_self
  have hwithin : ∀ x ∈ b.reachable root, x ∈ added a b :=
    reachable_mem (fun x hx => ⟨hx.2, fun part hpart => (h.loose.parts x hx part hpart).1⟩) hnew
  have hforest : Forest {x | a.size ≤ x} b [root] := h.forest (.nil _ a) fun _ hx => hx
  refine ⟨hnew, hforest.isTree List.mem_cons_self, hwithin, fun old hold x hx hroot => ?_⟩
  exact Nat.not_le_of_lt (h.grown.reachable_lt hold x hx) (hwithin x hroot).1

/-- Whether it succeeds or fails, reading a source text into an arena adds
    fresh nodes only, and a root that is read is that of a new tree. -/
theorem parse_fresh (arena : Arena) (source : String) :
    Fresh arena (arena.parse source).2 ∧
      ∀ root, (arena.parse source).1 = .ok root → NewTree arena (arena.parse source).2 root := by
  unfold parse Parser.run
  cases tokenize source with
  | error e => exact ⟨.refl arena, fun root h => by cases h⟩
  | ok tokens =>
      dsimp only
      cases hrun : Parser.program ⟨arena, tokens⟩ with
      | error e s => exact ⟨(Parser.makes_program.error hrun).loose.toFresh, fun root h => by cases h⟩
      | ok id s =>
          have hbuilds := Parser.makes_program.ok hrun
          refine ⟨hbuilds.loose.toFresh, fun root h => ?_⟩
          cases h
          exact hbuilds.newTree

/-- The null that is there and the name that is read have no node in common. -/
theorem parse_fresh_name : ∃ root, (Arena.parse ⟨#[.null]⟩ "a").1 = .ok root ∧
    ((Arena.parse ⟨#[.null]⟩ "a").2.reachable 0).Disjoint
      ((Arena.parse ⟨#[.null]⟩ "a").2.reachable root) := by
  have hread : (Arena.parse ⟨#[.null]⟩ "a").1.toOption = some 3 := by decide +kernel
  have hnull : ∀ x ∈ Arena.reachable ⟨#[.null]⟩ 0, x < Arena.size ⟨#[.null]⟩ := by decide
  obtain ⟨-, htree⟩ := parse_fresh ⟨#[.null]⟩ "a"
  cases hroot : (Arena.parse ⟨#[.null]⟩ "a").1 with
  | error e =>
      rw [hroot] at hread
      cases hread
  | ok root => exact ⟨root, rfl, (htree root hroot).apart 0 hnull⟩

end Arena

end Script

end RenderFold
