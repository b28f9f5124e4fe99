import RenderFold.Proofs.Script.Zones
import Mathlib.Data.List.Perm.Basic

/-!
# Grafts

A copy of a tree is a tree of new nodes. The nodes of the copy stand in the
order in which the original is visited, so the copy of a node is found at
the place of its last visit. In a tree every node is visited once, which
makes every place the only one.

## Theorems

* `Arena.visits_perm`: A tree is visited along its span.
* `Arena.lastPosition_getElem`: Where a node of a tree is copied to.
* `Arena.graft_extends`, `Arena.graft_editedIn`: Grafting keeps the nodes
  that are there.
* `Arena.graft_grown`: The copy of a tree is a tree of new nodes.
-/

namespace RenderFold

namespace Script

namespace Arena

variable {arena source : Arena} {root : Id} {ids span order : List Id}

theorem visitsTo_perm (h : Spans source ids span) :
    ∀ depth, span.length ≤ depth → (ids.flatMap (source.visitsTo depth)).Perm span := by
  induction h with
  | nil => exact fun depth _ => List.Perm.refl []
  | @cons id ids below rest hlt hbelow hrest ihbelow ihrest =>
      intro depth hdepth
      simp only [List.length_append, List.length_cons] at hdepth
      cases depth with
      | zero => omega
      | succ depth =>
          rw [List.flatMap_cons, visitsTo]
          refine List.Perm.append (List.Perm.cons id ?_) (ihrest _ (by omega))
          -- The parts are visited from the last to the first.
          exact ((List.reverse_perm _).flatMap_right _).trans (ihbelow depth (by omega))

theorem length_le_size (h : Spans source ids span) (hnodup : span.Nodup) :
    span.length ≤ source.size := by
  have hsub : span ⊆ List.range source.size := fun id hid =>
    List.mem_range.mpr (h.lt_size id hid)
  have hle := (List.subperm_of_subset hnodup hsub).length_le
  rwa [List.length_range] at hle

theorem visits_perm (h : Spans source [root] span) (hnodup : span.Nodup) :
    (source.visits root).Perm span := by
  have hperm := visitsTo_perm h source.size (length_le_size h hnodup)
  rwa [List.flatMap_cons, List.flatMap_nil, List.append_nil] at hperm

theorem lastPosition_eq_none {id : Id} (h : id ∉ order) :
    ∀ position, lastPosition id position order = none := by
  induction order with
  | nil => exact fun _ => rfl
  | cons head rest ih =>
      intro position
      rw [List.mem_cons, not_or] at h
      simp only [lastPosition, ih h.2, if_neg (Ne.symm h.1)]

/-- In a list that names nothing twice, an index is found where it stands. -/
theorem lastPosition_getElem (hnodup : order.Nodup) {i : Nat} (hi : i < order.length) :
    ∀ position, lastPosition order[i] position order = some (position + i) := by
  induction order generalizing i with
  | nil => exact absurd hi (Nat.not_lt_zero i)
  | cons head rest ih =>
      intro position
      obtain ⟨hhead, hrest⟩ := List.nodup_cons.mp hnodup
      cases i with
      | zero =>
          simp only [List.getElem_cons_zero, lastPosition, lastPosition_eq_none hhead, if_true,
            Nat.add_zero]
      | succ i =>
          have hi' : i < rest.length := Nat.lt_of_succ_lt_succ hi
          simp only [List.getElem_cons_succ, lastPosition, ih hrest hi']
          congr 1
          omega

/-- Where the copy of a node goes. -/
def copyOf (arena : Arena) (order : List Id) (id : Id) : Id :=
  arena.size + (lastPosition id 0 order).getD 0

theorem copyOf_getElem (hnodup : order.Nodup) {i : Nat} (hi : i < order.length) :
    copyOf arena order order[i] = arena.size + i := by
  rw [copyOf, lastPosition_getElem hnodup hi, Option.getD_some, Nat.zero_add]

theorem copyOf_inj (hnodup : order.Nodup) {a b : Id} (ha : a ∈ order) (hb : b ∈ order)
    (h : copyOf arena order a = copyOf arena order b) : a = b := by
  obtain ⟨i, hi, rfl⟩ := List.getElem_of_mem ha
  obtain ⟨j, hj, rfl⟩ := List.getElem_of_mem hb
  rw [copyOf_getElem hnodup hi, copyOf_getElem hnodup hj] at h
  cases Nat.add_left_cancel h
  rfl

theorem size_graft (arena source : Arena) (root : Id) :
    (arena.graft source root).2.size = arena.size + (source.visits root).length := by
  simp only [graft, size, Array.size_append, List.size_toArray, List.length_map,
    List.length_zipIdx]

theorem graft_extends (arena source : Arena) (root : Id) :
    Extends arena (arena.graft source root).2 := by
  refine ⟨by rw [size_graft]; omega, fun id hid => ?_⟩
  have hid' : id < arena.nodes.size := hid
  simp only [get, graft, Array.getElem?_append_left hid']

theorem lastPosition_lt {id : Id} {found : Nat} :
    ∀ {position}, lastPosition id position order = some found → found < position + order.length := by
  induction order with
  | nil => exact fun h => by cases h
  | cons head rest ih =>
      intro position h
      rw [lastPosition] at h
      rw [List.length_cons]
      split at h
      · next hrest =>
          cases h
          have := ih hrest
          omega
      · split at h
        · cases h
          omega
        · cases h

theorem copyOf_lt {id : Id} (hsome : order ≠ []) :
    copyOf arena order id < arena.size + order.length := by
  have hpos : 0 < order.length := List.length_pos_iff.mpr hsome
  unfold copyOf
  cases hfound : lastPosition id 0 order with
  | none => exact Nat.add_lt_add_left hpos _
  | some found =>
      have hlt := lastPosition_lt hfound
      rw [Nat.zero_add] at hlt
      exact Nat.add_lt_add_left hlt _

theorem get_graft {i : Nat} (hi : i < (source.visits root).length) :
    (arena.graft source root).2.get (arena.size + i) =
      if copyOf arena (source.visits root) (source.visits root)[i] = arena.size + i then
        (source.get (source.visits root)[i]).map (copyOf arena (source.visits root))
      else .hole := by
  -- The node at this place is the copy of what is visited there, if that is not
  -- visited again later.
  have hentry : (source.visits root).zipIdx[i]? = some ((source.visits root)[i], i) := by
    rw [List.getElem?_zipIdx, List.getElem?_eq_getElem hi, Option.map_some, Nat.zero_add]
  rw [get, graft]
  simp only [Array.getElem?_append_right (Nat.le_add_right ..), size, Nat.add_sub_cancel_left,
    List.getElem?_toArray, List.getElem?_map, hentry, Option.map_some, Option.getD_some]
  rfl

/-- A graft refers to nothing but what it adds. -/
theorem graft_editedIn {zone : Set Id} (hclosed : Closed arena zone) (source : Arena) (root : Id) :
    EditedIn zone arena (arena.graft source root).2 := by
  have hext := graft_extends arena source root
  refine ⟨hext.1, fun id hid _ => hext.2 id hid, ?_⟩
  rintro id (hid | ⟨hle, hlt⟩)
  · obtain ⟨hlt, hparts⟩ := hclosed id hid
    refine ⟨Nat.lt_of_lt_of_le hlt hext.1, fun part hpart => Or.inl ?_⟩
    rw [hext.2 id hlt] at hpart
    exact hparts part hpart
  -- The parts of a copy are copies, and a hole has no parts.
  · refine ⟨hlt, fun part hpart => Or.inr ?_⟩
    obtain ⟨i, rfl⟩ := Nat.exists_eq_add_of_le hle
    rw [size_graft] at hlt
    have hi : i < (source.visits root).length := Nat.lt_of_add_lt_add_left hlt
    rw [get_graft hi] at hpart
    split at hpart
    · rw [Node.children_map] at hpart
      obtain ⟨child, -, rfl⟩ := List.mem_map.mp hpart
      refine ⟨Nat.le_add_right .., ?_⟩
      rw [size_graft]
      exact copyOf_lt (List.ne_nil_of_length_pos (Nat.zero_lt_of_lt hi))
    · exact absurd hpart List.not_mem_nil

theorem get_graft_copyOf (arena : Arena) (hnodup : (source.visits root).Nodup) {id : Id}
    (hid : id ∈ source.visits root) :
    (arena.graft source root).2.get (copyOf arena (source.visits root) id) =
      (source.get id).map (copyOf arena (source.visits root)) := by
  obtain ⟨i, hi, rfl⟩ := List.getElem_of_mem hid
  have hcopy : copyOf arena (source.visits root) (source.visits root)[i] = arena.size + i :=
    copyOf_getElem hnodup hi
  rw [hcopy, get_graft hi, if_pos hcopy]

theorem graft_spans (hnodup : (source.visits root).Nodup) (h : Spans source ids span)
    (hsub : span ⊆ source.visits root) :
    Spans (arena.graft source root).2 (ids.map (copyOf arena (source.visits root)))
      (span.map (copyOf arena (source.visits root))) := by
  induction h with
  | nil => exact .nil
  | @cons id ids below rest hlt hbelow hrest ihbelow ihrest =>
      have hid : id ∈ source.visits root := hsub List.mem_cons_self
      have hcopy := get_graft_copyOf arena hnodup hid
      obtain ⟨i, hi, hget⟩ := List.getElem_of_mem hid
      simp only [List.map_cons, List.cons_append, List.map_append]
      refine .cons ?_ ?_ (ihrest fun x hx => hsub (List.mem_append_right _ hx))
      · rw [size_graft, ← hget, copyOf_getElem hnodup hi]
        exact Nat.add_lt_add_left hi _
      · rw [hcopy, Node.children_map]
        exact ihbelow fun x hx => hsub (List.mem_cons_of_mem _ (List.mem_append_left _ hx))

/-- The copy of a tree is a tree of new nodes. -/
theorem graft_grown (arena : Arena) (h : Spans source [root] span) (hnodup : span.Nodup) :
    Grown arena.size (arena.graft source root).2 [(arena.graft source root).1] := by
  -- In a tree no node is visited twice, so every copy is in its place.
  have hperm := visits_perm h hnodup
  have hvisits : (source.visits root).Nodup := hperm.nodup_iff.mpr hnodup
  refine ⟨_, graft_spans hvisits h hperm.symm.subset, ?_, fun id hid => ?_⟩
  · refine List.Nodup.map_on (fun a ha b hb hab => ?_) hnodup
    exact copyOf_inj hvisits (hperm.symm.subset ha) (hperm.symm.subset hb) hab
  · obtain ⟨x, _, rfl⟩ := List.mem_map.mp hid
    exact Nat.le_add_right ..

end Arena

end Script

end RenderFold
