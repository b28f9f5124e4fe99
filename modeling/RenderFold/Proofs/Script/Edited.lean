import RenderFold.Proofs.Script.Paths

/-!
# Trees After an Edit

A tree is read off the nodes below an index, so it is the same in any arena
that has the same nodes there. An edit rewrites one node and adds others. What
is known about a forest tells that the node is not below the index at hand,
and then the tree stays. Otherwise the node is the index itself, and its new
tree is put together from those of its new parts.

A chain of sums is the one place where an edit reaches down: the literal at one
end of it is changed where it stands.

## Main definitions

* `Tree.EndChanged`: Chains of sums that differ in the text at one end.

## Theorems

* `Forest.tree_congr`: A tree only depends on the nodes below.
* `Forest.tree_push`: The tree of a new node.
* `Forest.tree_mapLiteral`: The tree of a chain whose end is changed.
* `Forest.tree_join`: The tree of a concatenation.
-/

namespace RenderFold

namespace Script

/-- Two chains of sums that differ in the text at one end: at the left end if
    `first` is set. -/
inductive Tree.EndChanged (change : String → String) : Bool → Tree → Tree → Prop where
  | text (first : Bool) (text : String) :
      EndChanged change first (.mk (.str text)) (.mk (.str (change text)))
  | left {left left' : Tree} (right : Tree) (h : EndChanged change true left left') :
      EndChanged change true (.mk (.binary .add left right)) (.mk (.binary .add left' right))
  | right {right right' : Tree} (left : Tree) (h : EndChanged change false right right') :
      EndChanged change false (.mk (.binary .add left right)) (.mk (.binary .add left right'))

namespace Arena

variable {arena a b : Arena} {zone : Set Id} {id left right target : Id} {ids span : List Id}
  {change : String → String}

/-- Down to any depth, a tree only depends on the nodes in its span. -/
theorem Spans.treeTo_congr (h : Spans a ids span) (hsame : ∀ x ∈ span, b.get x = a.get x)
    (depth : Nat) : ∀ x ∈ span, b.treeTo depth x = a.treeTo depth x := by
  induction depth with
  | zero => exact fun _ _ => rfl
  | succ depth ih =>
      intro x hx
      rw [treeTo, treeTo, hsame x hx, Node.map_congr fun part hpart => ih part (h.closed hx hpart)]

theorem get_mapLiteral_of_ne (arena : Arena) (change : String → String) (hne : id ≠ target) :
    (arena.mapLiteral target change).get id = arena.get id := by
  unfold mapLiteral
  split
  · exact get_replace_of_ne arena _ hne
  · rfl

namespace Forest

/-- A tree only depends on the nodes below. -/
theorem tree_congr (h : Forest zone a ids) (hsize : a.size ≤ b.size)
    (hsame : ∀ x ∈ zone, x < a.size → b.get x = a.get x) (hid : id ∈ ids) :
    b.tree id = a.tree id := by
  obtain ⟨span, hspans, hnodup, hzone⟩ := h
  have hle := length_le_size hspans hnodup
  -- The new arena may be larger, but nothing was cut off in the old one.
  calc b.treeTo b.size id
      = a.treeTo b.size id :=
        hspans.treeTo_congr (fun x hx => hsame x (hzone x hx) (hspans.lt_size x hx)) b.size id
          (hspans.subset hid)
    _ = a.treeTo a.size id := hspans.treeTo_eq (Nat.le_trans hle hsize) hle id hid

/-- Adding nodes leaves the trees that are there as they are. -/
theorem tree_extends (h : Forest zone a ids) (hext : Extends a b) (hid : id ∈ ids) :
    b.tree id = a.tree id :=
  h.tree_congr hext.1 (fun x _ hx => hext.2 x hx) hid

/-- The tree of a new node is put together from the trees of its parts. -/
theorem tree_push (node : Node Id) (h : Forest Set.univ arena node.children) :
    (arena.push node).2.tree (arena.push node).1 = .mk (node.map arena.tree) := by
  have hnew : Forest Set.univ (arena.push node).2 [(arena.push node).1] :=
    push node (by rwa [List.append_nil]) trivial
  rw [(hnew.isTree List.mem_cons_self).tree_eq, get_push_self]
  congr 1
  exact Node.map_congr fun part hpart => h.tree_extends (.push arena node) hpart

/-- Changing a literal leaves the trees beside it as they are. -/
theorem tree_mapLiteral_of_notMem (hspan : Spans arena [id] span) (hnodup : span.Nodup)
    (htarget : target ∉ span) :
    (arena.mapLiteral target change).tree id = arena.tree id := by
  have hapart : Forest {x | x ≠ target} arena [id] :=
    ⟨span, hspan, hnodup, fun x hx heq => htarget (heq ▸ hx)⟩
  exact hapart.tree_congr (mapLiteral_sameParts arena target change).1
    (fun x hx _ => get_mapLiteral_of_ne arena change hx) List.mem_cons_self

/-- The literal at the end of a chain of sums is below the chain. If its text
    is changed, the chain differs at that end and nowhere else. -/
theorem tree_mapLiteral {first : Bool} : ∀ {depth : Nat} {id : Id} {span : List Id},
    Spans arena [id] span → span.Nodup → arena.endLiteral? first depth id = some target →
      target ∈ span ∧ Tree.EndChanged change first (arena.tree id)
        ((arena.mapLiteral target change).tree id)
  | 0, _, _, _, _, h => by cases h
  | depth + 1, id, span, hspan, hnodup, h => by
      have htree : Forest Set.univ arena [id] := ⟨span, hspan, hnodup, fun _ _ => trivial⟩
      have hafter := ((mapLiteral_sameParts arena target change).forest htree).isTree
        List.mem_cons_self
      rw [(htree.isTree List.mem_cons_self).tree_eq, hafter.tree_eq]
      unfold endLiteral? at h
      split at h
      · next left right hsum =>
          obtain ⟨below, -, hbelow, rfl⟩ := Spans.single_iff.mp hspan
          rw [hsum] at hbelow
          obtain ⟨front, back, hfront, hback, rfl⟩ := hbelow.of_cons
          obtain ⟨hid, hnodup⟩ := List.nodup_cons.mp hnodup
          obtain ⟨hnodupF, hnodupB, hdisjoint⟩ := List.nodup_append.mp hnodup
          -- The search goes down one side. The other side is a tree of its own, so the
          -- literal is not in it.
          cases first with
          | true =>
              obtain ⟨hmem, hchanged⟩ := tree_mapLiteral hfront hnodupF h
              have hright : (arena.mapLiteral target change).tree right = arena.tree right :=
                tree_mapLiteral_of_notMem hback hnodupB fun hin =>
                  hdisjoint target hmem target hin rfl
              have hne : id ≠ target := fun heq => hid (heq ▸ List.mem_append_left _ hmem)
              refine ⟨List.mem_cons_of_mem _ (List.mem_append_left _ hmem), ?_⟩
              rw [get_mapLiteral_of_ne arena change hne, hsum, Node.map, Node.map, hright]
              exact .left _ hchanged
          | false =>
              obtain ⟨hmem, hchanged⟩ := tree_mapLiteral hback hnodupB h
              have hleft : (arena.mapLiteral target change).tree left = arena.tree left :=
                tree_mapLiteral_of_notMem hfront hnodupF fun hin =>
                  hdisjoint target hin target hmem rfl
              have hne : id ≠ target := fun heq => hid (heq ▸ List.mem_append_right _ hmem)
              refine ⟨List.mem_cons_of_mem _ (List.mem_append_right _ hmem), ?_⟩
              rw [get_mapLiteral_of_ne arena change hne, hsum, Node.map, Node.map, hleft]
              exact .right _ hchanged
      · next text htext =>
          cases h
          have hlt := (htree.mem List.mem_cons_self).2
          refine ⟨hspan.subset List.mem_cons_self, ?_⟩
          rw [mapLiteral, htext]
          dsimp only
          rw [get_replace_self hlt]
          exact .text first text
      · cases h

end Forest

theorem get_of_literal? {text : String} (h : arena.literal? id = some text) :
    arena.get id = .str text := by
  unfold literal? at h
  split at h
  · next hget =>
      cases h
      exact hget
  · cases h

/-- The tree of a literal. -/
theorem IsTree.tree_literal {text : String} (h : IsTree arena id)
    (hliteral : arena.literal? id = some text) : arena.tree id = .mk (.str text) := by
  rw [h.tree_eq, get_of_literal? hliteral]
  rfl

/-- What a concatenation may look like: a literal made of two, a chain of sums
    that has taken in the literal beside it, or a sum. -/
inductive Joined (left right : Tree) : Tree → Prop where
  | literals {first second : String} (hleft : left = .mk (.str first))
      (hright : right = .mk (.str second)) : Joined left right (.mk (.str (first ++ second)))
  | before {text : String} {whole : Tree} (hleft : left = .mk (.str text))
      (h : Tree.EndChanged (text ++ ·) true right whole) : Joined left right whole
  | after {text : String} {whole : Tree} (hright : right = .mk (.str text))
      (h : Tree.EndChanged (· ++ text) false left whole) : Joined left right whole
  | sum : Joined left right (.mk (.binary .add left right))

/-- Joining two expressions that have no part in common. -/
theorem Forest.tree_join (h : Forest Set.univ arena [left, right]) :
    Joined (arena.tree left) (arena.tree right)
      ((arena.join left right).2.tree (arena.join left right).1) := by
  have hleft : IsTree arena left := h.isTree List.mem_cons_self
  have hright : IsTree arena right := h.isTree (List.mem_cons_of_mem _ List.mem_cons_self)
  have hsum : Joined (arena.tree left) (arena.tree right)
      ((arena.push (.binary .add left right)).2.tree (arena.push (.binary .add left right)).1) := by
    rw [tree_push (.binary .add left right) h]
    exact .sum
  obtain ⟨span, hspan, hnodup, -⟩ := h
  obtain ⟨front, back, hfront, hback, rfl⟩ := hspan.of_cons
  obtain ⟨hnodupF, hnodupB, -⟩ := List.nodup_append.mp hnodup
  unfold join
  split
  · next first second hfirst hsecond =>
      rw [tree_push (.str (first ++ second)) (.nil _ _)]
      exact .literals (hleft.tree_literal hfirst) (hright.tree_literal hsecond)
  · next text hliteral _ =>
      split
      · next target htarget =>
          exact .before (hleft.tree_literal hliteral) (tree_mapLiteral hback hnodupB htarget).2
      · exact hsum
  · next text _ hliteral =>
      split
      · next target htarget =>
          exact .after (hright.tree_literal hliteral) (tree_mapLiteral hfront hnodupF htarget).2
      · exact hsum
  · exact hsum

end Arena

end Script

end RenderFold
