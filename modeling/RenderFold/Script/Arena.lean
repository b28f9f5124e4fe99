import RenderFold.Script.Tree

/-!
# Arenas

An arena holds the nodes of one or more render functions side by side, each
under the index at which it was added. Parts refer to one another by index,
so a node can be rewritten in place and every place that refers to it sees
the change, and notes about a node can be kept beside the arena under its
index.

An arena may hold references that lead nowhere, shared parts and even
cycles. `tree` reads off the tree below an index and stops at a reference
that leads nowhere and at depths that only a cycle can reach; `graft` copies
what is below an index from one arena into another; `reachable` is the set
of indices below an index.

## Main definitions

* `Arena`, `Id`: Nodes and their indices.
* `Arena.get`, `Arena.push`, `Arena.replace`: Reading, adding, rewriting.
* `Arena.tree`: The tree below an index.
* `Arena.graft`: A deep copy from another arena.
* `Arena.reachable`: The indices below an index.

## Theorems

* `Arena.get_push_self`, `Arena.get_push_of_ne`: What adding a node changes.
* `Arena.get_replace_self`, `Arena.get_replace_of_ne`: What rewriting a node
  changes.
-/

namespace RenderFold

namespace Script

/-- The index of a node in an arena. -/
abbrev Id := Nat

/-- Nodes that refer to one another by index. -/
structure Arena where
  nodes : Array (Node Id)
  deriving Inhabited

namespace Arena

/-- The arena without nodes. -/
def empty : Arena := ⟨#[]⟩

/-- How many nodes there are. -/
def size (arena : Arena) : Nat := arena.nodes.size

/-- The node at an index, a hole if there is none. -/
def get (arena : Arena) (id : Id) : Node Id := arena.nodes[id]?.getD .hole

/-- Add a node at the next free index. -/
def push (arena : Arena) (node : Node Id) : Id × Arena :=
  (arena.nodes.size, ⟨arena.nodes.push node⟩)

/-- Rewrite the node at an index. -/
def replace (arena : Arena) (id : Id) (node : Node Id) : Arena :=
  ⟨arena.nodes.setIfInBounds id node⟩

theorem get_of_size_le {arena : Arena} {id : Id} (h : arena.size ≤ id) : arena.get id = .hole := by
  rw [get, Array.getElem?_eq_none h, Option.getD_none]

theorem size_push (arena : Arena) (node : Node Id) :
    (arena.push node).2.size = arena.size + 1 :=
  Array.size_push node

theorem get_push_self (arena : Arena) (node : Node Id) :
    (arena.push node).2.get (arena.push node).1 = node := by
  simp only [get, push, Array.getElem?_push_size, Option.getD_some]

theorem get_push_of_ne (arena : Arena) (node : Node Id) {id : Id} (hne : id ≠ arena.size) :
    (arena.push node).2.get id = arena.get id := by
  simp only [get, push, Array.getElem?_push, if_neg (show id ≠ arena.nodes.size from hne)]

theorem size_replace (arena : Arena) (id : Id) (node : Node Id) :
    (arena.replace id node).size = arena.size :=
  Array.size_setIfInBounds

theorem get_replace_self {arena : Arena} {id : Id} (h : id < arena.size) (node : Node Id) :
    (arena.replace id node).get id = node := by
  rw [get, replace, Array.getElem?_setIfInBounds_self_of_lt h, Option.getD_some]

theorem get_replace_of_ne (arena : Arena) {id other : Id} (node : Node Id) (hne : other ≠ id) :
    (arena.replace id node).get other = arena.get other := by
  rw [get, replace, Array.getElem?_setIfInBounds_ne (Ne.symm hne), get]

/-- The tree below an index, cut off at depth `depth`. -/
def treeTo (arena : Arena) : Nat → Id → Tree
  | 0, _ => .mk .hole
  | depth + 1, id => .mk ((arena.get id).map (arena.treeTo depth))

/-- The tree below an index. A path that visits no index twice is no longer
    than the arena, so nothing is cut off unless there is a cycle. -/
def tree (arena : Arena) (id : Id) : Tree := arena.treeTo arena.size id

/-- The indices below `id` and itself, once for every path that leads there,
    each node before its parts and later parts before earlier ones. -/
def visitsTo (arena : Arena) : Nat → Id → List Id
  | 0, _ => []
  | depth + 1, id => id :: (arena.get id).children.reverse.flatMap (arena.visitsTo depth)

/-- The indices below `id`, once for every path. -/
def visits (arena : Arena) (id : Id) : List Id := arena.visitsTo arena.size id

/-- The position of the last occurrence of `id`, counting from `position`. -/
def lastPosition (id : Id) : Nat → List Id → Option Nat
  | _, [] => none
  | position, head :: rest =>
    match lastPosition id (position + 1) rest with
    | some found => some found
    | none => if head = id then some position else none

/-- Copy what is below `root` in `source` to the end of the arena and return
    the index of the copy. One node is added for every visit; a shared part
    is copied at its last visit, the nodes of its other visits stay holes
    that nothing refers to. -/
def graft (arena source : Arena) (root : Id) : Id × Arena :=
  let order := source.visits root
  let copyOf (id : Id) : Id := arena.size + (lastPosition id 0 order).getD 0
  let copies := order.zipIdx.map fun (id, position) =>
    if copyOf id = arena.size + position then (source.get id).map copyOf else .hole
  (copyOf root, ⟨arena.nodes ++ copies.toArray⟩)

/-- Work through a stack of indices. An index met for the first time is
    added to `seen` and its parts are put on the stack; `fuel` bounds the
    number of indices taken off the stack. -/
def reachableFrom (arena : Arena) : Nat → List Id → List Id → List Id
  | 0, seen, _ => seen
  | _, seen, [] => seen
  | fuel + 1, seen, id :: stack =>
    if seen.contains id then arena.reachableFrom fuel seen stack
    else arena.reachableFrom fuel (id :: seen) ((arena.get id).children.reverse ++ stack)

/-- The number of references between nodes. -/
def references (arena : Arena) : Nat :=
  arena.nodes.foldl (fun count node => count + node.children.length) 0

/-- The indices that can be reached from `root`, itself included. Every
    reference puts at most one index on the stack, so the stack is empty
    after at most one step more than there are references. -/
def reachable (arena : Arena) (root : Id) : List Id :=
  arena.reachableFrom (arena.references + 1) [] [root]

end Arena

end Script

end RenderFold
