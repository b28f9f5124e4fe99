import RenderFold.Script.Tree

/-!
# Names in Trees

The names that stand in a tree as variables. Whether a name is that of a
parameter, of a declaration or of neither is a matter of where the tree is
run, so all of them count.

## Main definitions

* `Tree.names`: The names that are looked up in a tree.

## Theorems

* `Tree.names_part`: The names in a part are names in the whole.
-/

namespace RenderFold

namespace Script

namespace Tree

mutual

/-- The names that are looked up in a tree. -/
def names : Tree → List String
  | .mk node => nodeNames node
termination_by structural t => t

/-- The names that are looked up in a node. -/
def nodeNames : Node Tree → List String
  | .ident name => [name]
  | .function _ _ body => listNames body
  | .ret none => []
  | .ret (some argument) => names argument
  | .declare _ _ init => names init
  | .branch test consequent none => names test ++ listNames consequent
  | .branch test consequent (some alternate) =>
    names test ++ (listNames consequent ++ listNames alternate)
  | .discard expression => names expression
  | .member target _ => names target
  | .index target position => names target ++ names position
  | .call callee arguments => names callee ++ listNames arguments
  | .array elements => listNames elements
  | .object properties => propertyNames properties
  | .not argument => names argument
  | .binary _ left right => names left ++ names right
  | .conditional test consequent alternate =>
    names test ++ (names consequent ++ names alternate)
  | .arrow _ body => names body
  | .str _ | .num _ | .bool _ | .null | .hole => []
termination_by structural node => node

/-- The names that are looked up in trees. -/
def listNames : List Tree → List String
  | [] => []
  | t :: rest => names t ++ listNames rest
termination_by structural ts => ts

/-- The names that are looked up in properties. -/
def propertyNames : List (String × Tree) → List String
  | [] => []
  | (_, t) :: rest => names t ++ propertyNames rest
termination_by structural properties => properties

end

theorem mem_listNames {name : String} {t : Tree} {ts : List Tree} (ht : t ∈ ts)
    (hname : name ∈ t.names) : name ∈ listNames ts := by
  induction ts with
  | nil => cases ht
  | cons first rest ih =>
      rw [listNames, List.mem_append]
      cases ht with
      | head => exact Or.inl hname
      | tail _ ht => exact Or.inr (ih ht)

theorem mem_propertyNames {name key : String} {t : Tree} {properties : List (String × Tree)}
    (ht : (key, t) ∈ properties) (hname : name ∈ t.names) : name ∈ propertyNames properties := by
  induction properties with
  | nil => cases ht
  | cons first rest ih =>
      obtain ⟨other, value⟩ := first
      rw [propertyNames, List.mem_append]
      cases ht with
      | head => exact Or.inl hname
      | tail _ ht => exact Or.inr (ih ht)

/-- A name that is looked up in a part is looked up in the whole. -/
theorem names_part {name : String} {node : Node Tree} {t : Tree} (ht : t ∈ node.children)
    (hname : name ∈ t.names) : name ∈ (Tree.mk node).names := by
  rw [names]
  cases node with
  | ret argument =>
      cases argument with
      | none => cases ht
      | some argument => cases List.mem_singleton.mp ht; exact hname
  | branch test consequent alternate =>
      cases alternate with
      | none =>
          rw [Node.children, List.mem_cons, List.mem_append] at ht
          rw [nodeNames, List.mem_append]
          rcases ht with rfl | ht | ht
          · exact Or.inl hname
          · exact Or.inr (mem_listNames ht hname)
          · cases ht
      | some alternate =>
          rw [Node.children, List.mem_cons, List.mem_append] at ht
          rw [nodeNames, List.mem_append, List.mem_append]
          rcases ht with rfl | ht | ht
          · exact Or.inl hname
          · exact Or.inr (Or.inl (mem_listNames ht hname))
          · exact Or.inr (Or.inr (mem_listNames ht hname))
  | function | array => exact mem_listNames ht hname
  | object properties =>
      obtain ⟨⟨key, value⟩, hmem, rfl⟩ := List.mem_map.mp ht
      exact mem_propertyNames hmem hname
  | call callee arguments =>
      rw [nodeNames, List.mem_append]
      rcases List.mem_cons.mp ht with rfl | ht
      · exact Or.inl hname
      · exact Or.inr (mem_listNames ht hname)
  | index | binary =>
      simp only [Node.children, List.mem_cons, List.not_mem_nil, or_false] at ht
      rw [nodeNames, List.mem_append]
      rcases ht with rfl | rfl
      · exact Or.inl hname
      · exact Or.inr hname
  | conditional =>
      simp only [Node.children, List.mem_cons, List.not_mem_nil, or_false] at ht
      rw [nodeNames, List.mem_append, List.mem_append]
      rcases ht with rfl | rfl | rfl
      · exact Or.inl hname
      · exact Or.inr (Or.inl hname)
      · exact Or.inr (Or.inr hname)
  | declare | discard | member | not | arrow => cases List.mem_singleton.mp ht; exact hname
  | str | num | bool | null | ident | hole => cases ht

end Tree

end Script

end RenderFold
