import RenderFold.Script.Node

/-!
# Trees

A render function as a tree: every part is a node that holds its own parts.
This is the form that is printed and run. Two trees are equal exactly when
they have the same shape and the same names, texts and numbers throughout.

The parts of a node sit in lists, options and named pairs, so the recursor
that comes with the type has a case for each of those. `Tree.induction` puts
them together: it asks for one step from the parts of a node to the node.

## Main definitions

* `Tree`: A node whose parts are trees.

## Theorems

* `Tree.induction`: What holds of a node as soon as it holds of its parts
  holds of every tree.
-/

namespace RenderFold

namespace Script

/-- A node whose parts are trees. -/
inductive Tree where
  | mk (node : Node Tree)

namespace Tree

instance : Inhabited Tree := ⟨.mk .hole⟩

/-- The outermost node. -/
def node : Tree → Node Tree
  | .mk node => node

theorem sizeOf_child_lt {node : Node Tree} {t : Tree} (h : t ∈ node.children) :
    sizeOf t < sizeOf (Tree.mk node) := by
  have hlist : ∀ {ts : List Tree}, t ∈ ts → sizeOf t < sizeOf ts := List.sizeOf_lt_of_mem
  cases node with
  | ret argument =>
      cases argument <;> simp only [Node.children, Option.toList, List.mem_cons,
        List.not_mem_nil, or_false] at h
      subst h
      simp +arith
  | branch test consequent alternate =>
      simp only [Node.children, List.mem_cons, List.mem_append] at h
      rcases h with rfl | h | h
      · simp +arith
      · have := hlist h
        simp only [mk.sizeOf_spec, Node.branch.sizeOf_spec]
        omega
      · cases alternate with
        | none => simp only [Option.getD, List.not_mem_nil] at h
        | some body =>
            have := hlist (Option.getD_some ▸ h)
            simp only [mk.sizeOf_spec, Node.branch.sizeOf_spec, Option.some.sizeOf_spec]
            omega
  | object properties =>
      simp only [Node.children, List.mem_map] at h
      obtain ⟨⟨key, value⟩, hmem, rfl⟩ := h
      have := List.sizeOf_lt_of_mem hmem
      simp only [mk.sizeOf_spec, Node.object.sizeOf_spec, Prod.mk.sizeOf_spec] at this ⊢
      omega
  | function _ _ body =>
      simp only [Node.children] at h
      have := hlist h
      simp only [mk.sizeOf_spec, Node.function.sizeOf_spec]
      omega
  | array elements =>
      simp only [Node.children] at h
      have := hlist h
      simp only [mk.sizeOf_spec, Node.array.sizeOf_spec]
      omega
  | call callee arguments =>
      simp only [Node.children, List.mem_cons] at h
      rcases h with rfl | h
      · simp +arith
      · have := hlist h
        simp only [mk.sizeOf_spec, Node.call.sizeOf_spec]
        omega
  | conditional =>
      simp only [Node.children, List.mem_cons, List.not_mem_nil, or_false] at h
      rcases h with rfl | rfl | rfl <;> simp +arith
  | index | binary =>
      simp only [Node.children, List.mem_cons, List.not_mem_nil, or_false] at h
      rcases h with rfl | rfl <;> simp +arith
  | declare | discard | member | not | arrow =>
      simp only [Node.children, List.mem_cons, List.not_mem_nil, or_false] at h
      subst h
      simp +arith
  | str | num | bool | null | ident | hole =>
      simp only [Node.children, List.not_mem_nil] at h

/-- A property that passes from the parts of every node to the node holds of
    every tree. -/
theorem induction {motive : Tree → Prop}
    (step : ∀ node : Node Tree, (∀ t ∈ node.children, motive t) → motive (.mk node)) :
    ∀ t, motive t
  | .mk node => step node fun t _ => induction step t
termination_by t => sizeOf t
decreasing_by exact sizeOf_child_lt (by assumption)

end Tree

end Script

end RenderFold
