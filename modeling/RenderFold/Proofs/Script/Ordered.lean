import RenderFold.Proofs.Script.Spans

/-!
# Nodes After Their Parts

In an arena that has only ever been added to, every node comes after its
parts. Then nothing is cut off a tree that is read off it: the index is a
bound on the depth. And the tree below an index stays what it is while nodes
are added.

## Main definitions

* `Arena.Ordered`: Every node comes after its parts.
* `Arena.Stands`: A tree is below an index.

## Theorems

* `Ordered.tree_eq`: A tree is a node with the trees of its parts.
* `Stands.mono`: Trees stay when nodes are added.
* `Stands.push`: A node that is added stands for a tree.
-/

namespace RenderFold

namespace Script

namespace Arena

/-- Every node comes after its parts. -/
def Ordered (arena : Arena) : Prop := ∀ id, ∀ part ∈ (arena.get id).children, part < id

/-- A tree is below an index. -/
def Stands (arena : Arena) (id : Id) (t : Tree) : Prop := id < arena.size ∧ arena.tree id = t

variable {arena a b : Arena} {id : Id} {t : Tree}

namespace Ordered

theorem empty : Ordered .empty := by
  intro id part hpart
  rw [get_of_size_le (Nat.zero_le id)] at hpart
  exact absurd hpart List.not_mem_nil

theorem treeTo_eq (h : Ordered arena) : ∀ {depth depth' : Nat} {id : Id}, id < depth →
    id < depth' → arena.treeTo depth id = arena.treeTo depth' id
  | depth + 1, depth' + 1, id, hdepth, hdepth' => by
      rw [treeTo, treeTo, Node.map_congr fun part hpart => ?_]
      have hlt := h id part hpart
      exact treeTo_eq h (Nat.lt_of_lt_of_le hlt (Nat.le_of_lt_succ hdepth))
        (Nat.lt_of_lt_of_le hlt (Nat.le_of_lt_succ hdepth'))

/-- A tree is a node with the trees of its parts. -/
theorem tree_eq (h : Ordered arena) (hid : id < arena.size) :
    arena.tree id = .mk ((arena.get id).map arena.tree) := by
  unfold tree
  rw [h.treeTo_eq hid (Nat.lt_succ_of_lt hid), treeTo]

theorem of_extends (h : Ordered b) (hext : Extends a b) : Ordered a := by
  intro id part hpart
  rcases Nat.lt_or_ge id a.size with hlt | hge
  · rw [← hext.2 id hlt] at hpart
    exact h id part hpart
  · rw [get_of_size_le hge] at hpart
    exact absurd hpart List.not_mem_nil

theorem push (h : Ordered arena) {node : Node Id} (hnode : ∀ part ∈ node.children, part < arena.size) :
    Ordered (arena.push node).2 := by
  intro id part hpart
  by_cases hid : id = arena.size
  · subst hid
    rw [show (arena.push node).2.get arena.size = node from get_push_self arena node] at hpart
    exact hnode part hpart
  · rw [get_push_of_ne arena node hid] at hpart
    exact h id part hpart

/-- Trees stay when nodes are added. -/
theorem tree_extends (h : Ordered b) (hext : Extends a b) (hid : id < a.size) :
    b.tree id = a.tree id := by
  induction id using Nat.strongRecOn with
  | _ id ih =>
      rw [h.tree_eq (Nat.lt_of_lt_of_le hid hext.1), (h.of_extends hext).tree_eq hid, hext.2 id hid]
      congr 1
      refine Node.map_congr fun part hpart => ?_
      have hlt := h.of_extends hext id part hpart
      exact ih part hlt (Nat.lt_trans hlt hid)

end Ordered

namespace Stands

theorem mono (h : Stands a id t) (hext : Extends a b) (hb : Ordered b) : Stands b id t :=
  ⟨Nat.lt_of_lt_of_le h.1 hext.1, (hb.tree_extends hext h.1).trans h.2⟩

/-- A node that is added stands for a tree. -/
theorem push (h : Ordered arena) {node : Node Id} (hnode : ∀ part ∈ node.children, part < arena.size) :
    Stands (arena.push node).2 (arena.push node).1 (.mk (node.map arena.tree)) := by
  have hext := Extends.push arena node
  have hlt : (arena.push node).1 < (arena.push node).2.size := by
    rw [size_push]
    exact Nat.lt_succ_self _
  refine ⟨hlt, ?_⟩
  rw [(h.push hnode).tree_eq hlt, get_push_self]
  congr 1
  exact Node.map_congr fun part hpart => (h.push hnode).tree_extends hext (hnode part hpart)

end Stands

end Arena

end Script

end RenderFold
